import SqlLint.Protocol.Capabilities

/-! # Methods

All that an editor may ask for or tell, whether it is answered here or not, and what it answers when
the server asks. -/
namespace SqlLint.Protocol

open Shape

def folder : Shape := record "WorkspaceFolder" [required "uri" uri, required "name" text]

def initializeParams : Shape :=
  compound "InitializeParams" [optional "processId" natural, optional "rootPath" text,
    optional "rootUri" uri, optional "initializationOptions" anything,
    required "capabilities" clientCapabilities,
    optional "trace" (choice ["off", "messages", "verbose"]),
    optional "workspaceFolders" (list folder),
    optional "clientInfo" (record "ClientInfo" [required "name" text, optional "version" text]),
    optional "locale" text] [progress]

def formattingOptions : Shape :=
  compound "FormattingOptions" [required "tabSize" natural, required "insertSpaces" boolean,
    flag "trimTrailingWhitespace", flag "insertFinalNewline", flag "trimFinalNewlines"]
    [remainder (either "FormattingProperty" [boolean, integer, text])]

def codeActionContext : Shape :=
  record "CodeActionContext" [required "diagnostics" (list diagnostic), optional "only" (list text),
    optional "triggerKind" integer]

/-- What is asked about a place in a document. -/
def positionParams (name : String) : Shape := compound name [] [atPosition, progress, partialResults]

def documentParams (name : String) (more : List Member) : Shape :=
  compound name (inDocument :: more) [progress, partialResults]

def formattingParams : Shape :=
  compound "DocumentFormattingParams" [inDocument, required "options" formattingOptions] [progress]

def rangeFormattingParams : Shape :=
  compound "DocumentRangeFormattingParams"
    [inDocument, required "range" range, required "options" formattingOptions] [progress]

def typeFormattingParams : Shape :=
  compound "DocumentOnTypeFormattingParams"
    [required "ch" text, required "options" formattingOptions] [atPosition]

def hoverParams : Shape := compound "HoverParams" [] [atPosition, progress]

def codeActionParams : Shape :=
  documentParams "CodeActionParams" [required "range" range, required "context" codeActionContext]

def executeCommandParams : Shape :=
  compound "ExecuteCommandParams" [required "command" text, defaulted "arguments" (list anything)]
    [progress]

def referenceParams : Shape :=
  compound "ReferenceParams"
    [required "context" (record "ReferenceContext" [required "includeDeclaration" boolean])]
    [atPosition, progress, partialResults]

def completionParams : Shape :=
  compound "CompletionParams"
    [optional "context" (record "CompletionContext"
      [required "triggerKind" integer, optional "triggerCharacter" text])]
    [atPosition, progress, partialResults]

def parameterInformation : Shape :=
  record "ParameterInformation"
    [required "label" (either "ParameterLabel" [text, items [natural, natural]]),
      optional "documentation" documentation]

def signatureInformation : Shape :=
  record "SignatureInformation" [required "label" text, optional "documentation" documentation,
    optional "parameters" (list parameterInformation), optional "activeParameter" natural]

def signatureHelp : Shape :=
  record "SignatureHelp" [required "signatures" (list signatureInformation),
    optional "activeSignature" natural, optional "activeParameter" natural]

def signatureHelpParams : Shape :=
  compound "SignatureHelpParams"
    [optional "context" (record "SignatureHelpContext"
      [required "triggerKind" integer, optional "triggerCharacter" text,
        required "isRetrigger" boolean, optional "activeSignatureHelp" signatureHelp])]
    [atPosition, progress]

def callHierarchyItem : Shape :=
  record "CallHierarchyItem" [required "name" text, required "kind" integer,
    optional "tags" (list integer), optional "detail" text, required "uri" uri, required "range" range,
    required "selectionRange" range, optional "data" anything]

def typeHierarchyItem : Shape :=
  record "TypeHierarchyItem" [required "name" text, required "kind" integer, optional "tags" integer,
    optional "detail" text, required "uri" uri, required "range" range,
    required "selectionRange" range, optional "data" anything]

/-- What is asked about an item that was answered before. -/
def itemParams (name : String) (item : Shape) : Shape :=
  compound name [required "item" item] [progress, partialResults]

def inlineValueParams : Shape :=
  compound "InlineValueParams" [inDocument, required "range" range,
    required "context" (record "InlineValueContext"
      [required "frameId" integer, required "stoppedLocation" range])] [progress]

def workspaceDiagnosticParams : Shape :=
  compound "WorkspaceDiagnosticParams" [optional "identifier" text,
    required "previousResultIds"
      (list (record "PreviousResultId" [required "uri" uri, required "value" text]))]
    [progress, partialResults]

def color : Shape := record "Color" (["red", "green", "blue", "alpha"].map (required · decimal))

def saveReason : Member := required "reason" integer

def willSaveParams : Shape := record "WillSaveTextDocumentParams" [inDocument, saveReason]

/-- What is about to happen to files. -/
def filesParams (name item : String) (keys : List String) : Shape :=
  record name [required "files" (list (record item (keys.map (required · text))))]

def codeAction : Shape :=
  record "CodeAction" [required "title" text, optional "kind" text,
    optional "diagnostics" (list diagnostic), optional "edit" workspaceEdit, optional "command" command,
    flag "isPreferred",
    optional "disabled" (record "CodeActionDisabled" [required "reason" text]), optional "data" anything]

def codeLens : Shape :=
  record "CodeLens" [required "range" range, optional "command" command, optional "data" anything]

def documentLink : Shape :=
  record "DocumentLink" [required "range" range, optional "target" uri, optional "tooltip" text,
    optional "data" anything]

def insertReplaceEdit : Shape :=
  record "InsertReplaceEdit" [required "newText" text, required "insert" range, required "replace" range]

def completionItem : Shape :=
  record "CompletionItem" [required "label" text,
    optional "labelDetails" (record "CompletionItemLabelDetails"
      [optional "detail" text, optional "description" text]),
    optional "kind" integer, optional "detail" text, optional "documentation" documentation,
    flag "deprecated", flag "preselect", optional "sortText" text, optional "filterText" text,
    optional "insertText" text, optional "insertTextFormat" integer, optional "insertTextMode" integer,
    optional "textEdit" (either "CompletionTextEdit" [textEdit, insertReplaceEdit]),
    optional "additionalTextEdits" (list textEdit), optional "command" command,
    optional "commitCharacters" (list text), optional "data" anything, optional "tags" (list integer)]

def tooltip (name : String) : Member := optional "tooltip" (either name [text, markup])

def inlayHintPart : Shape :=
  record "InlayHintLabelPart" [required "value" text, tooltip "InlayHintLabelPartTooltip",
    optional "location" location, optional "command" command]

def inlayHint : Shape :=
  record "InlayHint" [required "position" position,
    required "label" (either "InlayHintLabel" [text, list inlayHintPart]), optional "kind" integer,
    optional "textEdits" (list textEdit), tooltip "InlayHintTooltip", flag "paddingLeft",
    flag "paddingRight", optional "data" anything]

def workspaceSymbol : Shape :=
  record "WorkspaceSymbol" [required "name" text, required "kind" integer,
    optional "tags" (list integer), optional "containerName" text,
    required "location" (either "OneOf"
      [location, record "WorkspaceLocation" [required "uri" uri]]),
    optional "data" anything]

/-- The requests that concern a document, with the shapes of their parameters. -/
def documentRequests : List (String × Shape) :=
  [("formatting", formattingParams), ("rangeFormatting", rangeFormattingParams),
    ("onTypeFormatting", typeFormattingParams), ("hover", hoverParams), ("codeAction", codeActionParams),
    ("willSaveWaitUntil", willSaveParams), ("declaration", positionParams "GotoDefinitionParams"),
    ("definition", positionParams "GotoDefinitionParams"),
    ("typeDefinition", positionParams "GotoDefinitionParams"),
    ("implementation", positionParams "GotoDefinitionParams"), ("references", referenceParams),
    ("prepareCallHierarchy", compound "CallHierarchyPrepareParams" [] [atPosition, progress]),
    ("prepareTypeHierarchy", compound "TypeHierarchyPrepareParams" [] [atPosition, progress]),
    ("documentHighlight", positionParams "DocumentHighlightParams"),
    ("documentLink", documentParams "DocumentLinkParams" []),
    ("codeLens", documentParams "CodeLensParams" []),
    ("foldingRange", documentParams "FoldingRangeParams" []),
    ("selectionRange", documentParams "SelectionRangeParams" [required "positions" (list position)]),
    ("documentSymbol", documentParams "DocumentSymbolParams" []),
    ("semanticTokens/full", documentParams "SemanticTokensParams" []),
    ("semanticTokens/full/delta",
      documentParams "SemanticTokensDeltaParams" [required "previousResultId" text]),
    ("semanticTokens/range", documentParams "SemanticTokensRangeParams" [required "range" range]),
    ("inlineValue", inlineValueParams),
    ("inlayHint", compound "InlayHintParams" [inDocument, required "range" range] [progress]),
    ("moniker", positionParams "MonikerParams"), ("completion", completionParams),
    ("diagnostic", documentParams "DocumentDiagnosticParams"
      [optional "identifier" text, optional "previousResultId" text]),
    ("signatureHelp", signatureHelpParams),
    ("documentColor", documentParams "DocumentColorParams" []),
    ("colorPresentation", documentParams "ColorPresentationParams"
      [required "color" color, required "range" range]),
    ("rename", compound "RenameParams" [required "newName" text] [atPosition, progress]),
    ("prepareRename",
      record "TextDocumentPositionParams" [inDocument, required "position" position]),
    ("linkedEditingRange", compound "LinkedEditingRangeParams" [] [atPosition, progress])]

def requests : List (String × Shape) :=
  [("initialize", initializeParams), ("shutdown", nothing),
    ("workspace/executeCommand", executeCommandParams),
    ("workspace/symbol",
      compound "WorkspaceSymbolParams" [required "query" text] [partialResults, progress]),
    ("workspace/diagnostic", workspaceDiagnosticParams),
    ("workspace/willCreateFiles", filesParams "CreateFilesParams" "FileCreate" ["uri"]),
    ("workspace/willRenameFiles", filesParams "RenameFilesParams" "FileRename" ["oldUri", "newUri"]),
    ("workspace/willDeleteFiles", filesParams "DeleteFilesParams" "FileDelete" ["uri"]),
    ("callHierarchy/incomingCalls", itemParams "CallHierarchyIncomingCallsParams" callHierarchyItem),
    ("callHierarchy/outgoingCalls", itemParams "CallHierarchyOutgoingCallsParams" callHierarchyItem),
    ("typeHierarchy/supertypes", itemParams "TypeHierarchySupertypesParams" typeHierarchyItem),
    ("typeHierarchy/subtypes", itemParams "TypeHierarchySubtypesParams" typeHierarchyItem),
    ("codeAction/resolve", codeAction), ("codeLens/resolve", codeLens),
    ("documentLink/resolve", documentLink), ("completionItem/resolve", completionItem),
    ("inlayHint/resolve", inlayHint), ("workspaceSymbol/resolve", workspaceSymbol)] ++
  documentRequests.map fun r => ("textDocument/" ++ r.1, r.2)

/-- The notifications; nothing depends on the parameters of those that are ignored. -/
def notifications : List (String × Shape) :=
  [("initialized", record "InitializedParams" []), ("exit", anything),
    ("textDocument/didOpen", record "DidOpenTextDocumentParams" [required "textDocument" documentItem]),
    ("textDocument/didChange", record "DidChangeTextDocumentParams"
      [required "textDocument" versionedDocumentId, required "contentChanges" (list contentChange)]),
    ("textDocument/willSave", willSaveParams),
    ("textDocument/didSave", record "DidSaveTextDocumentParams" [inDocument, optional "text" text]),
    ("textDocument/didClose", record "DidCloseTextDocumentParams" [inDocument]),
    ("workspace/didChangeConfiguration",
      record "DidChangeConfigurationParams" [required "settings" anything])] ++
  ["notebookDocument/didOpen", "notebookDocument/didChange", "notebookDocument/didSave",
    "notebookDocument/didClose", "workspace/didChangeWorkspaceFolders", "workspace/didCreateFiles",
    "workspace/didRenameFiles", "workspace/didDeleteFiles", "workspace/didChangeWatchedFiles",
    "$/cancelRequest"].map fun method => (method, anything)

/-- The request to take back. -/
def cancelParams : Shape := record "CancelParams" [required "id" numberOrText]

/-- What the editor answers when it is asked to show a page or to apply edits. -/
def showDocumentResult : Shape := record "ShowDocumentResult" [required "success" boolean]

def applyEditResult : Shape :=
  record "ApplyWorkspaceEditResponse" [required "applied" boolean, optional "failureReason" text,
    optional "failedChange" natural]

end SqlLint.Protocol
