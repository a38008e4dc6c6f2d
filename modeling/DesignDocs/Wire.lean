import DesignDocs.Error.Basic
import DesignDocs.Json.Record
import DesignDocs.Json.Render

namespace DesignDocs

open Text (Symbol)

/-- Descriptors and their JSON form: each is read from a source and written as a tree, and so from
and to texts, bytes and values. -/
class Wire (α : Type) where
  read : Json.Reader α
  toJson : α → Json

/-- The error of a reader, with the kind that can be told from its fault. The message says what
stopped the reader, and not at which line and column of a text. -/
def DesignError.ofFault (f : Json.Fault) : DesignError := .of f.apparentKind f.message

namespace Wire

variable {α : Type} [Wire α]

def ofSymbols (cs : List Symbol) : Except DesignError α :=
  ((read (α := α)).symbols cs).mapError .ofFault

def ofText (s : String) : Except DesignError α := ofSymbols (Symbol.ofString s)

def ofBytes (bytes : ByteArray) : Except DesignError α := ofSymbols (Symbol.ofBytes bytes)

def ofValue (v : Value) : Except DesignError α := (read (.ofJson v.json)).mapError .ofFault

def toText (a : α) : String := (toJson a).render

def toPrettyText (a : α) : String := (toJson a).renderPretty

def toValue (a : α) : Value := .ofJson (toJson a)

end Wire

end DesignDocs
