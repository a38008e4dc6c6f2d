import DesignDocs.Index.Basic
import DesignDocs.Text.Blank

namespace DesignDocs

namespace QueryIndex

inductive Defect
  | blankName
  | noField (type : IndexType)
  | emptyFieldName
  | primary
  deriving DecidableEq

def Defect.error : Defect → DesignError
  | blankName => .of .validation "Index name cannot be empty"
  | noField type => .of .validation s!"{type.name} index must have at least one field"
  | emptyFieldName => .of .validation "Index field name cannot be empty"
  | primary => .of .validation "An index of type 'special' cannot be created"

def bodyDefect? : IndexBody → Option Defect
  | .json b =>
    if b.fields.isEmpty then some (.noField .json)
    else if b.fields.any (·.name.isEmpty) then some .emptyFieldName
    else none
  | .special b =>
    if b.fields.isEmpty then some (.noField .special)
    else if b.fields.any (·.name.isEmpty) then some .emptyFieldName
    else none
  | .text b => if (b.fields.getD []).any (·.name.isEmpty) then some .emptyFieldName else none

def defect? (i : QueryIndex) : Option Defect :=
  if i.name?.any Text.isBlankText then some .blankName else bodyDefect? i.body

def validate (i : QueryIndex) : Except DesignError Unit :=
  match i.defect? with
  | some d => .error d.error
  | none => .ok ()

def creationPayload (i : QueryIndex) : Except DesignError Value :=
  if i.type = .special then .error Defect.primary.error
  else (i.validate).map fun _ ↦ .ofJson (i.toJsonUnder "index")

end QueryIndex

end DesignDocs
