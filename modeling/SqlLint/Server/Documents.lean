import SqlLint.Server.Linting
import SqlLint.Text.Change

/-! # Documents of a session -/
namespace SqlLint.Server

def activate (uri : String) (s : Server) : Server := { s with active := some uri }

/-- Lints a document if the settings say so. -/
def lintIf (wanted : Trigger → Bool) (uri : Uri) : Handler Unit := do
  if wanted (← loadSettings).run then lintAndReport uri

/-- Opens a document of a supported language. -/
def didOpen (uri : Uri) (language : String) (text : List Char) : Handler Unit := do
  if Provider.isSupported language then
    Handler.modifyServer fun s => activate uri.text (s.openDocument uri.text ⟨text, language, []⟩)
    Handler.log .info ("Opened document: " ++ uri.text)
    lintIf (· ≠ .off) uri

/-- Changes an open document and makes it the active one. -/
def edit (uri : Uri) (f : List Char → List Char) (wanted : Trigger → Bool) : Handler Unit := do
  if (← Handler.server).isOpen uri.text then
    Handler.modifyServer fun s =>
      activate uri.text (s.update uri.text fun d => { d with text := f d.text })
    lintIf wanted uri

def didChange (uri : Uri) (changes : List Change) : Handler Unit :=
  edit uri (Change.applyAll · changes) (· = .onType)

def didSave (uri : Uri) (text : Option (List Char)) : Handler Unit :=
  edit uri (text.getD ·) (· = .onSave)

def didClose (uri : Uri) : Handler Unit := do
  Handler.modifyServer fun s => s.closeDocument uri.text
  Handler.publish uri.text []

end SqlLint.Server
