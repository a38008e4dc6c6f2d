import DesignDocs.Document.Validity

namespace DesignDocs

inductive ScriptSection
  | filters
  | shows
  | lists
  | updates
  deriving DecidableEq

inductive DocumentStep
  | rev (s : String)
  | language (s : String)
  | view (name : String) (v : View)
  | searchIndex (name : String) (i : SearchIndex)
  | script (place : ScriptSection) (name : String) (s : Script)
  | validateDocUpdate (s : Script)
  | rewrite (r : RewriteRule)
  | fulltext (name : String) (i : FulltextIndex)

/-- A document in the making, and the error of the first step that failed. -/
structure DocumentDraft where
  error : Option DesignError
  document : DesignDocument

namespace DocumentDraft

def start (id : String) : DocumentDraft := ⟨none, .new (DesignDocument.fullId id)⟩

inductive NameFault
  | blank (place : String)
  | taken (place name : String)
  deriving DecidableEq

def NameFault.error : NameFault → DesignError
  | blank place => .of .validation s!"Names in '{place}' cannot be empty"
  | taken place name => .of .duplicateName s!"'{name}' is already defined in '{place}'"

def addNamed {α : Type} (place : String) (m : Option (NamedMap α)) (name : String) (a : α) :
    Except NameFault (NamedMap α) :=
  let m := m.getD .empty
  if Text.isBlankText name then .error (.blank place)
  else if h : name ∈ m.names then .error (.taken place name)
  else .ok (m.push name a h)

/-- Adds to a section, unless an earlier step has failed. -/
def add {α : Type} (d : DocumentDraft) (place : String) (m : Option (NamedMap α))
    (name : String) (a : α) (put : NamedMap α → DesignDocument → DesignDocument) :
    DocumentDraft :=
  match d.error with
  | some _ => d
  | none =>
    match addNamed place m name a with
    | .ok m => { d with document := put m d.document }
    | .error f => { d with error := some f.error }

def apply (d : DocumentDraft) : DocumentStep → DocumentDraft
  | .rev s => { d with document := d.document.withRev s }
  | .language s => { d with document := { d.document with language := some s } }
  | .view name v =>
    d.add "views" d.document.views name v fun m doc ↦ { doc with views := some m }
  | .searchIndex name i =>
    d.add "indexes" d.document.indexes name i fun m doc ↦ { doc with indexes := some m }
  | .script .filters name s =>
    d.add "filters" d.document.filters name s fun m doc ↦ { doc with filters := some m }
  | .script .shows name s =>
    d.add "shows" d.document.shows name s fun m doc ↦ { doc with shows := some m }
  | .script .lists name s =>
    d.add "lists" d.document.lists name s fun m doc ↦ { doc with lists := some m }
  | .script .updates name s =>
    d.add "updates" d.document.updates name s fun m doc ↦ { doc with updates := some m }
  | .validateDocUpdate s =>
    { d with document := { d.document with validateDocUpdate := some s } }
  | .rewrite r =>
    { d with document :=
      { d.document with rewrites := some (d.document.rewrites.getD [] ++ [r]) } }
  | .fulltext name i =>
    d.add "fulltext" d.document.fulltext name i fun m doc ↦ { doc with fulltext := some m }

def finish (d : DocumentDraft) : Except DesignError DesignDocument :=
  match d.error with
  | some e => .error e
  | none => d.document.validate.map fun _ ↦ d.document

end DocumentDraft

def DesignDocument.build (id : String) (steps : List DocumentStep) :
    Except DesignError DesignDocument :=
  (steps.foldl DocumentDraft.apply (.start id)).finish

end DesignDocs
