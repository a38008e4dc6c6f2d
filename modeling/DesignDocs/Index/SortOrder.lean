import DesignDocs.Error.Basic
import DesignDocs.Json.Variant

namespace DesignDocs

inductive SortOrder
  | ascending
  | descending
  deriving DecidableEq

namespace SortOrder

def text : SortOrder → String
  | ascending => "asc"
  | descending => "desc"

def ofText? : String → Option SortOrder
  | "asc" => some ascending
  | "desc" => some descending
  | _ => none

def parse (s : String) : Except DesignError SortOrder :=
  match ofText? s with
  | some order => .ok order
  | none =>
    .error (.of .invalidFieldShape s!"'{s}' is not a sort direction, expected 'asc' or 'desc'")

def variants : Json.Variants := ⟨["asc", "desc"], "`asc` or `desc`"⟩

def ofWord (word : String) : Except Json.Fault SortOrder :=
  match ofText? word with
  | some order => .ok order
  | none => .error (.unknownVariant word variants.listed)

def ofJsonText (s : String) : Except Json.Fault SortOrder := variants.ofText s >>= ofWord

def ofValue (v : Value) : Except Json.Fault SortOrder := variants.ofJson v.json >>= ofWord

end SortOrder

end DesignDocs
