import SqlLint.Protocol.Document

/-! # What an editor can do

The editor says so when a session starts, feature by feature. -/
namespace SqlLint.Protocol

open Shape

/-- A feature that can be registered at any time. -/
def dynamicFlag : Member := flag "dynamicRegistration"

def registrable : Shape := record "DynamicRegistrationClientCapabilities" [dynamicFlag]

def goto : Shape := record "GotoCapability" [dynamicFlag, flag "linkSupport"]

/-- A feature whose results the server may have asked for again. -/
def refreshable (name : String) : Shape := record name [flag "refreshSupport"]

/-- The properties that can be looked up later, item by item. -/
def properties (name : String) : Member :=
  optional "resolveSupport" (record name [required "properties" (list text)])

/-- Some values that the editor knows; it may know all of them, or none. -/
def tags (value : Shape) : Member :=
  defaulted "tagSupport"
    (orFlag (record "TagSupport" [required "valueSet" (list value)]) (.mk [("valueSet", .array [])]))

def symbolKinds : Member :=
  optional "symbolKind" (record "SymbolKindCapability" [optional "valueSet" (list integer)])

def workspaceEditing : Shape :=
  record "WorkspaceEditClientCapabilities" [flag "documentChanges",
    optional "resourceOperations" (list (choice ["create", "rename", "delete"])),
    optional "failureHandling" (choice ["abort", "transactional", "textOnlyTransactional", "undo"]),
    flag "normalizesLineEndings",
    optional "changeAnnotationSupport"
      (record "ChangeAnnotationWorkspaceEditClientCapabilities" [flag "groupsOnLabel"])]

def workspaceSymbols : Shape :=
  record "WorkspaceSymbolClientCapabilities" [dynamicFlag, symbolKinds, tags integer,
    properties "WorkspaceSymbolResolveSupportCapability"]

def fileOperations : Shape :=
  record "WorkspaceFileOperationsClientCapabilities" (dynamicFlag ::
    ["didCreate", "willCreate", "didRename", "willRename", "didDelete", "willDelete"].map flag)

def workspace : Shape :=
  record "WorkspaceClientCapabilities" [flag "applyEdit", optional "workspaceEdit" workspaceEditing,
    optional "didChangeConfiguration" registrable,
    optional "didChangeWatchedFiles"
      (record "DidChangeWatchedFilesClientCapabilities" [dynamicFlag, flag "relativePatternSupport"]),
    optional "symbol" workspaceSymbols, optional "executeCommand" registrable, flag "workspaceFolders",
    flag "configuration",
    optional "semanticTokens" (refreshable "SemanticTokensWorkspaceClientCapabilities"),
    optional "codeLens" (refreshable "CodeLensWorkspaceClientCapabilities"),
    optional "fileOperations" fileOperations,
    optional "inlineValue" (refreshable "InlineValueWorkspaceClientCapabilities"),
    optional "inlayHint" (refreshable "InlayHintWorkspaceClientCapabilities"),
    optional "diagnostics" (refreshable "DiagnosticWorkspaceClientCapabilities")]

def synchronization : Shape :=
  record "TextDocumentSyncClientCapabilities" [dynamicFlag, flag "willSave", flag "willSaveWaitUntil",
    flag "didSave"]

def completionItems : Shape :=
  record "CompletionItemCapability" [flag "snippetSupport", flag "commitCharactersSupport",
    optional "documentationFormat" (list markupKind), flag "deprecatedSupport", flag "preselectSupport",
    tags integer, flag "insertReplaceSupport", properties "CompletionItemCapabilityResolveSupport",
    optional "insertTextModeSupport"
      (record "InsertTextModeSupport" [required "valueSet" (list integer)]),
    flag "labelDetailsSupport"]

def completions : Shape :=
  record "CompletionClientCapabilities" [dynamicFlag, optional "completionItem" completionItems,
    optional "completionItemKind"
      (record "CompletionItemKindCapability" [optional "valueSet" (list integer)]),
    flag "contextSupport", optional "insertTextMode" integer,
    optional "completionList" (record "CompletionListCapability" [optional "itemDefaults" (list text)])]

def hovers : Shape :=
  record "HoverClientCapabilities" [dynamicFlag, optional "contentFormat" (list markupKind)]

def signatures : Shape :=
  record "SignatureHelpClientCapabilities" [dynamicFlag,
    optional "signatureInformation" (record "SignatureInformationSettings" [
      optional "documentationFormat" (list markupKind),
      optional "parameterInformation" (record "ParameterInformationSettings" [flag "labelOffsetSupport"]),
      flag "activeParameterSupport"]),
    flag "contextSupport"]

def documentSymbols : Shape :=
  record "DocumentSymbolClientCapabilities" [dynamicFlag, symbolKinds,
    flag "hierarchicalDocumentSymbolSupport", tags integer, flag "labelSupport"]

def codeActions : Shape :=
  record "CodeActionClientCapabilities" [dynamicFlag,
    optional "codeActionLiteralSupport" (record "CodeActionLiteralSupport" [
      required "codeActionKind" (record "CodeActionKindLiteralSupport"
        [required "valueSet" (list text)])]),
    flag "isPreferredSupport", flag "disabledSupport", flag "dataSupport",
    properties "CodeActionCapabilityResolveSupport", flag "honorsChangeAnnotations"]

def renames : Shape :=
  record "RenameClientCapabilities" [dynamicFlag, flag "prepareSupport",
    optional "prepareSupportDefaultBehavior" integer, flag "honorsChangeAnnotations"]

def publishing : Shape :=
  record "PublishDiagnosticsClientCapabilities" [flag "relatedInformation", tags integer,
    flag "versionSupport", flag "codeDescriptionSupport", flag "dataSupport"]

def folding : Shape :=
  record "FoldingRangeClientCapabilities" [dynamicFlag, optional "rangeLimit" natural,
    flag "lineFoldingOnly",
    optional "foldingRangeKind" (record "FoldingRangeKindCapability"
      [optional "valueSet" (list (choice ["comment", "imports", "region"]))]),
    optional "foldingRange" (record "FoldingRangeCapability" [flag "collapsedText"])]

def semanticTokens : Shape :=
  record "SemanticTokensClientCapabilities" [dynamicFlag,
    required "requests" (record "SemanticTokensClientCapabilitiesRequests" [flag "range",
      optional "full" (either "SemanticTokensFullOptions"
        [boolean, record "SemanticTokensFullOptions" [flag "delta"]])]),
    required "tokenTypes" (list text), required "tokenModifiers" (list text),
    required "formats" (list text), flag "overlappingTokenSupport",
    flag "multilineTokenSupport", flag "serverCancelSupport", flag "augmentsSyntaxTokens"]

def diagnostics : Shape :=
  record "DiagnosticClientCapabilities" [dynamicFlag, flag "relatedDocumentSupport",
    flag "relatedInformation",
    optional "tagSupport"
      (record "ClientDiagnosticsTagOptions" [required "valueSet" (list integer)]),
    flag "codeDescriptionSupport", flag "dataSupport"]

def textDocuments : Shape :=
  record "TextDocumentClientCapabilities" [optional "synchronization" synchronization,
    optional "completion" completions, optional "hover" hovers, optional "signatureHelp" signatures,
    optional "references" registrable, optional "documentHighlight" registrable,
    optional "documentSymbol" documentSymbols, optional "formatting" registrable,
    optional "rangeFormatting" registrable, optional "onTypeFormatting" registrable,
    optional "declaration" goto, optional "definition" goto, optional "typeDefinition" goto,
    optional "implementation" goto, optional "codeAction" codeActions, optional "codeLens" registrable,
    optional "documentLink" (record "DocumentLinkClientCapabilities" [dynamicFlag, flag "tooltipSupport"]),
    optional "colorProvider" registrable, optional "rename" renames,
    optional "publishDiagnostics" publishing, optional "foldingRange" folding,
    optional "selectionRange" (record "SelectionRangeClientCapabilities" [dynamicFlag]),
    optional "linkedEditingRange" registrable, optional "callHierarchy" registrable,
    optional "semanticTokens" semanticTokens, optional "moniker" registrable,
    optional "typeHierarchy" registrable, optional "inlineValue" registrable,
    optional "inlayHint" (record "InlayHintClientCapabilities"
      [dynamicFlag, properties "InlayHintResolveClientCapabilities"]),
    optional "diagnostic" diagnostics,
    optional "inlineCompletion" (record "InlineCompletionClientCapabilities" [dynamicFlag])]

def notebooks : Shape :=
  record "NotebookDocumentClientCapabilities" [required "synchronization"
    (record "NotebookDocumentSyncClientCapabilities" [dynamicFlag, flag "executionSummaryReport"])]

def window : Shape :=
  record "WindowClientCapabilities" [flag "workDoneProgress",
    optional "showMessage" (record "ShowMessageRequestClientCapabilities" [
      optional "messageActionItem"
        (record "MessageActionItemCapabilities" [flag "additionalPropertiesSupport"])]),
    optional "showDocument" (record "ShowDocumentClientCapabilities" [required "support" boolean])]

def general : Shape :=
  record "GeneralClientCapabilities" [
    optional "regularExpressions" (record "RegularExpressionsClientCapabilities"
      [required "engine" text, optional "version" text]),
    optional "markdown" (record "MarkdownClientCapabilities"
      [required "parser" text, optional "version" text, optional "allowedTags" (list text)]),
    optional "staleRequestSupport" (record "StaleRequestSupportClientCapabilities"
      [required "cancel" boolean, required "retryOnContentModified" (list text)]),
    optional "positionEncodings" (list text)]

def clientCapabilities : Shape :=
  record "ClientCapabilities" [optional "workspace" workspace, optional "textDocument" textDocuments,
    optional "notebookDocument" notebooks, optional "window" window, optional "general" general,
    optional "offsetEncoding" (list text), optional "experimental" anything]

end SqlLint.Protocol
