import SqlLint.Protocol.Shape

/-! # Documents and diagnostics in messages -/
namespace SqlLint.Protocol

open Shape

/-- A member that says yes or no. -/
def flag (key : String) : Member := optional key boolean

def position : Shape := record "Position" [required "line" natural, required "character" natural]

def range : Shape := record "Range" [required "start" position, required "end" position]

def location : Shape := record "Location" [required "uri" uri, required "range" range]

def documentId : Shape := record "TextDocumentIdentifier" [required "uri" uri]

def versionedDocumentId : Shape :=
  record "VersionedTextDocumentIdentifier" [required "uri" uri, required "version" integer]

def documentItem : Shape :=
  record "TextDocumentItem" [required "uri" uri, required "languageId" text, required "version" integer,
    required "text" text]

def contentChange : Shape :=
  record "TextDocumentContentChangeEvent" [optional "range" range, optional "rangeLength" natural,
    required "text" text]

def numberOrText : Shape := either "NumberOrString" [integer, text]

def relatedInformation : Shape :=
  record "DiagnosticRelatedInformation" [required "location" location, required "message" text]

def diagnostic : Shape :=
  record "Diagnostic" [required "range" range, optional "severity" integer, optional "code" numberOrText,
    optional "codeDescription" (record "CodeDescription" [required "href" uri]), optional "source" text,
    required "message" text, optional "relatedInformation" (list relatedInformation),
    optional "tags" (list integer), optional "data" anything]

def command : Shape :=
  record "Command" [required "title" text, required "command" text,
    optional "arguments" (list anything)]

def textEdit : Shape := record "TextEdit" [required "range" range, required "newText" text]

def annotatedTextEdit : Shape :=
  compound "AnnotatedTextEdit" [required "annotationId" text]
    [part [required "range" range, required "newText" text]]

def documentEdit : Shape :=
  record "TextDocumentEdit" [
    required "textDocument" (record "OptionalVersionedTextDocumentIdentifier"
      [required "uri" uri, optional "version" integer]),
    required "edits" (list (either "OneOf" [textEdit, annotatedTextEdit]))]

/-- The creation, renaming or deletion of a file. -/
def fileOperation : Shape :=
  let kind (place : Nat) (name : String) : Member := required "kind" (tag place name)
  let annotation : Member := optional "annotationId" text
  let writing (name : String) : Member :=
    optional "options" (record name [flag "overwrite", flag "ignoreIfExists"])
  either "ResourceOp" [
    record "CreateFile"
      [kind 0 "create", required "uri" uri, writing "CreateFileOptions", annotation],
    record "RenameFile"
      [kind 1 "rename", required "oldUri" uri, required "newUri" uri, writing "RenameFileOptions",
        annotation],
    record "DeleteFile"
      [kind 2 "delete", required "uri" uri,
        optional "options" (record "DeleteFileOptions"
          [flag "recursive", flag "ignoreIfNotExists", annotation])]]

def documentChanges : Shape :=
  either "DocumentChanges" [list documentEdit,
    list (either "DocumentChangeOperation" [fileOperation, documentEdit])]

def changeAnnotation : Shape :=
  record "ChangeAnnotation" [required "label" text, optional "needsConfirmation" boolean,
    optional "description" text]

def workspaceEdit : Shape :=
  record "WorkspaceEdit" [defaulted "changes" (nullable (dictionary uri (list textEdit))),
    optional "documentChanges" documentChanges,
    optional "changeAnnotations" (dictionary text changeAnnotation)]

def markupKind : Shape := choice ["plaintext", "markdown"]

def markup : Shape := record "MarkupContent" [required "kind" markupKind, required "value" text]

def documentation : Shape := either "Documentation" [text, markup]

/-- The members of a record that is about one document, or about a place in it. -/
def inDocument : Member := required "textDocument" documentId

def atPosition : Part := part [inDocument, required "position" position]

/-- What reports the progress of a request, and what takes its results bit by bit. -/
def progress : Part := part [optional "workDoneToken" numberOrText]

def partialResults : Part := part [optional "partialResultToken" numberOrText]

end SqlLint.Protocol
