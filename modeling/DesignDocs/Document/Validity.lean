import DesignDocs.Document.Basic

namespace DesignDocs.DesignDocument

def idStart : String := "_design/"

def startsId (s : String) : Bool := idStart.toList.isPrefixOf s.toList

def fullId (id : String) : String := if startsId id then id else idStart ++ id

/-- The id has a name after its beginning. -/
def namesDocument (id : String) : Bool := startsId id && id != idStart

inductive Defect
  | badId (id : String)
  | blankName (place : String)
  | emptyMap (view : String)
  | emptyTarget (position : Nat)
  deriving DecidableEq

def Defect.message : Defect → String
  | badId id => s!"Design document id '{id}' must start with '{idStart}' followed by a name"
  | blankName place => s!"Empty name in '{place}'"
  | emptyMap view => s!"View '{view}' has an empty map"
  | emptyTarget position => s!"Rewrite rule {position} has an empty target"

def Defect.error (d : Defect) : DesignError := .of .validation d.message

def idDefect? (d : DesignDocument) : Option Defect :=
  if namesDocument d.id then none else some (.badId d.id)

def nameDefect? {α : Type} (place : String) (m : Option (NamedMap α)) : Option Defect :=
  if (m.map NamedMap.names).any (·.any Text.isBlankText) then some (.blankName place) else none

def mapDefect? (d : DesignDocument) : Option Defect :=
  d.views.bind fun m ↦
    (m.entries.find? fun p ↦ p.2.map.isEmpty).map fun p ↦ .emptyMap p.1

def targetDefect? (d : DesignDocument) : Option Defect :=
  d.rewrites.bind fun rules ↦
    (rules.findIdx? fun r ↦ r.target.isEmpty).map .emptyTarget

def defect? (d : DesignDocument) : Option Defect :=
  [d.idDefect?, nameDefect? "views" d.views, nameDefect? "indexes" d.indexes,
    nameDefect? "filters" d.filters, nameDefect? "shows" d.shows, nameDefect? "lists" d.lists,
    nameDefect? "updates" d.updates, nameDefect? "fulltext" d.fulltext, d.mapDefect?,
    d.targetDefect?].findSome? fun defect ↦ defect

def validate (d : DesignDocument) : Except DesignError Unit :=
  match d.defect? with
  | some defect => .error defect.error
  | none => .ok ()

end DesignDocs.DesignDocument
