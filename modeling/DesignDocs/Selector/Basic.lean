import DesignDocs.Wire

namespace DesignDocs

structure Selector where
  members : Object

namespace Selector

def empty : Selector := ⟨.empty⟩

def isEmpty (s : Selector) : Bool := s.members.isEmpty

def toValue (s : Selector) : Value := .object s.members

def toJson (s : Selector) : Json := s.members.toJson

def text (s : Selector) : String := s.toJson.render

def read : Json.Reader Selector := fun s ↦ (Json.Reader.object s).map .mk

instance : BEq Selector := ⟨fun s t ↦ s.members == t.members⟩

instance : Wire Selector := ⟨read, toJson⟩

end Selector

end DesignDocs
