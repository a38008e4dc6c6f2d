import DesignDocs.Json.Basic

namespace DesignDocs.Json

def hexDigit (n : Nat) : Char := if n < 10 then Char.ofNat (48 + n) else Char.ofNat (87 + n)

/-- Quotes, backslashes and control characters are escaped; all else stands for itself. -/
def escaped (c : Char) : List Char :=
  if c = '"' then ['\\', '"']
  else if c = '\\' then ['\\', '\\']
  else if c = '\x08' then ['\\', 'b']
  else if c = '\x0c' then ['\\', 'f']
  else if c = '\n' then ['\\', 'n']
  else if c = '\r' then ['\\', 'r']
  else if c = '\t' then ['\\', 't']
  else if c.toNat < 0x20 then
    ['\\', 'u', '0', '0', hexDigit (c.toNat / 16), hexDigit (c.toNat % 16)]
  else [c]

def quotedChars (s : String) : List Char := '"' :: s.toList.flatMap escaped ++ ['"']

def boolChars : Bool → List Char
  | true => ['t', 'r', 'u', 'e']
  | false => ['f', 'a', 'l', 's', 'e']

mutual

def chars : Json → List Char
  | null => ['n', 'u', 'l', 'l']
  | bool b => boolChars b
  | number n => n.text.toList
  | string s => quotedChars s
  | array [] => ['[', ']']
  | array (v :: vs) => '[' :: v.chars ++ charsItems vs
  | object [] => ['{', '}']
  | object ((k, v) :: ms) => '{' :: quotedChars k ++ ':' :: v.chars ++ charsMembers ms

def charsItems : List Json → List Char
  | [] => [']']
  | v :: vs => ',' :: v.chars ++ charsItems vs

def charsMembers : List (String × Json) → List Char
  | [] => ['}']
  | (k, v) :: ms => ',' :: quotedChars k ++ ':' :: v.chars ++ charsMembers ms

end

def newline (level : Nat) : List Char := '\n' :: List.replicate (2 * level) ' '

mutual

def prettyChars (level : Nat) : Json → List Char
  | null => ['n', 'u', 'l', 'l']
  | bool b => boolChars b
  | number n => n.text.toList
  | string s => quotedChars s
  | array [] => ['[', ']']
  | array (v :: vs) =>
    '[' :: newline (level + 1) ++ v.prettyChars (level + 1) ++ prettyItems level vs
  | object [] => ['{', '}']
  | object ((k, v) :: ms) =>
    '{' :: newline (level + 1) ++ quotedChars k ++ ':' :: ' ' :: v.prettyChars (level + 1) ++
      prettyMembers level ms

def prettyItems (level : Nat) : List Json → List Char
  | [] => newline level ++ [']']
  | v :: vs => ',' :: newline (level + 1) ++ v.prettyChars (level + 1) ++ prettyItems level vs

def prettyMembers (level : Nat) : List (String × Json) → List Char
  | [] => newline level ++ ['}']
  | (k, v) :: ms =>
    ',' :: newline (level + 1) ++ quotedChars k ++ ':' :: ' ' :: v.prettyChars (level + 1) ++
      prettyMembers level ms

end

def render (v : Json) : String := String.ofList v.chars

def renderPretty (v : Json) : String := String.ofList (v.prettyChars 0)

end DesignDocs.Json
