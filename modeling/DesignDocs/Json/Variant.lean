import DesignDocs.Json.Reader

namespace DesignDocs.Json

/-- Words out of a closed list. A word is given as a string, or as an object that maps the word to
null. In a text the object is read part by part; in a tree it is seen whole. -/
structure Variants where
  words : List String
  listed : String

namespace Variants

def check (v : Variants) (word : String) : Except Fault String :=
  if v.words.contains word then .ok word else .error (.unknownVariant word v.listed)

def word (v : Variants) (o : Outcome String) : Except Fault String := do
  let s ← o.read.mapError Fault.form
  v.check s

def unit : Reader Unit
  | .null => .ok ()
  | s => .error (s.mismatch "unit")

def after (ts : List Token) : Except Fault (List Token) := (skipValue ts).mapError .form

def scan (v : Variants) : List Token → Except Fault (String × List Token)
  | [] => .error (.form .endInValue)
  | .string o :: rest => do
    let word ← v.word o
    return (word, rest)
  | .openBrace :: [] => .error (.form .endInObject)
  | .openBrace :: .string o :: rest => do
    let word ← v.word o
    match rest with
    | [] => .error (.form .endInObject)
    | .colon :: rest => do
      unit (.ofTokens 1 rest)
      match ← after rest with
      | [] => .error (.form .endInObject)
      | .closeBrace :: rest => return (word, rest)
      | _ :: _ => .error (.form .noValue)
    | _ :: _ => .error (.form .noColon)
  | .openBrace :: .closeBrace :: _ => .error (.form .noValue)
  | .openBrace :: _ :: _ => .error (.form .nameNotString)
  | _ :: _ => .error (.form .noValue)

def ofText (v : Variants) (s : String) : Except Fault String := do
  match ← v.scan (Token.scan (Text.Symbol.ofString s)) with
  | (word, []) => return word
  | (_, _ :: _) => .error (.form .trailingText)

def ofJson (v : Variants) : Json → Except Fault String
  | .string s => v.check s
  | .object [(key, value)] => do
    let word ← v.check key
    unit (.ofJson value)
    return word
  | .object _ => .error .severalVariants
  | value => .error ((Source.ofJson value).mismatch "string or map")

end Variants

end DesignDocs.Json
