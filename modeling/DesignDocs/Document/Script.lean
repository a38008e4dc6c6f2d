import DesignDocs.Text.Blank
import DesignDocs.Wire

namespace DesignDocs

structure Script where
  source : String
  deriving DecidableEq

namespace Script

def isBlank (s : Script) : Bool := Text.isBlankText s.source

def read : Json.Reader Script := fun s ↦ (Json.Reader.text s).map .mk

def toJson (s : Script) : Json := .string s.source

instance : Wire Script := ⟨read, toJson⟩

end Script

end DesignDocs
