import DesignDocs.Selector.Basic
import DesignDocs.Text.Blank

namespace DesignDocs.Selector

/-- The key under which a selector stands in a query. -/
def defaultKey : String := "selector"

/-- The key under which the filter of an index stands in its definition. -/
def filterKey : String := "partial_filter_selector"

inductive ParseFault
  | blank
  | notObject
  | neither (key : String)
  | valueNotObject (key : String)
  | badValue (key : String) (f : Json.Fault)

def ParseFault.error : ParseFault → DesignError
  | blank => .of .invalidSelector "Selector text cannot be empty"
  | notObject => .of .invalidSelector "Selector must be a JSON object"
  | neither key =>
    .of .invalidSelector
      ("Selector should be valid JSON or like \"" ++ key ++ "\": \x7b...\x7d")
  | valueNotObject key =>
    .of .invalidSelector ("Value of \"" ++ key ++ "\" must be a JSON object")
  | badValue key f =>
    .because .invalidSelector ("Invalid JSON after \"" ++ key ++ "\"") (.ofFault f)

def startsWith (s start : String) : Bool := start.toList.isPrefixOf s.toList

/-- The text after the first colon, trimmed; empty where there is no colon. -/
def afterColon (s : String) : String :=
  Text.trim (String.ofList ((s.toList.dropWhile (· != ':')).drop 1))

def parseFragment (key text : String) : Except ParseFault Object :=
  if startsWith text key || startsWith text ("\"" ++ key ++ "\"") then
    match Json.parse (afterColon text) with
    | .error f => .error (.badValue key f)
    | .ok v =>
      match v.object? with
      | some o => .ok o
      | none => .error (.valueNotObject key)
  else .error (.neither key)

/-- Takes one wrapper off: an object under the key, beside which nothing stands. -/
def unwrap (key : String) (o : Object) : Object :=
  match o.entries with
  | [(name, v)] => if name = key then v.object?.getD o else o
  | _ => o

def parseObject (key text : String) : Except ParseFault Object :=
  if text.isEmpty then .error .blank
  else
    match Json.parse text with
    | .ok v =>
      match v.object? with
      | some o => .ok o
      | none => .error .notObject
    | .error _ => parseFragment key text

/-- The text is the selector's object, or an object that holds the selector under the key and
nothing else, or that key, a colon and the object. -/
def parseKeyed (key text : String) : Except DesignError Selector :=
  match parseObject key (Text.trim text) with
  | .ok o => .ok ⟨unwrap key o⟩
  | .error f => .error f.error

def parse (text : String) : Except DesignError Selector := parseKeyed defaultKey text

end DesignDocs.Selector
