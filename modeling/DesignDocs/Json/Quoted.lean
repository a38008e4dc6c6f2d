import DesignDocs.Json.Fault
import DesignDocs.Text.Utf8

namespace DesignDocs.Json.Quoted

open Text (Symbol)

/-- The pieces of a string as it is spelled. Escapes of surrogates that do not pair and bytes that
are no text are no faults of a piece: they are met when the pieces are put together, and so never by
a reader that skips the string. -/
inductive Piece
  | plain (s : Symbol)
  | escaped (c : Char)
  /-- A UTF-16 unit given by its four hexadecimal digits. -/
  | unit (code : Nat)
  deriving DecidableEq

inductive Closing
  | quote
  | endOfText
  | control
  | unknownEscape
  | badHex
  | shortHex
  deriving DecidableEq

namespace Closing

def fault? : Closing → Option FormFault
  | quote => none
  | endOfText | shortHex => some .endInString
  | control => some .controlCharacter
  | unknownEscape | badHex => some .badEscape

def faultAfterHigh : Closing → FormFault
  | quote | control | unknownEscape => .brokenSurrogatePair
  | endOfText | shortHex => .endInString
  | badHex => .badEscape

end Closing

def escape? : Char → Option Char
  | '"' => some '"'
  | '\\' => some '\\'
  | '/' => some '/'
  | 'b' => some '\x08'
  | 'f' => some '\x0c'
  | 'n' => some '\n'
  | 'r' => some '\r'
  | 't' => some '\t'
  | _ => none

def hexDigit? : Symbol → Option Nat
  | .char c =>
    if '0' ≤ c ∧ c ≤ '9' then some (c.toNat - 48)
    else if 'a' ≤ c ∧ c ≤ 'f' then some (c.toNat - 87)
    else if 'A' ≤ c ∧ c ≤ 'F' then some (c.toNat - 55)
    else none
  | .stray _ => none

def hexUnit? (a b c d : Symbol) : Option Nat := do
  return (((← hexDigit? a) * 16 + (← hexDigit? b)) * 16 + (← hexDigit? c)) * 16 + (← hexDigit? d)

/-- Four bytes are read before any of them is looked at. -/
def hexFault (cs : List Symbol) : Closing :=
  if cs.foldl (fun n c ↦ n + c.size) 0 < 4 then .shortHex else .badHex

def isControl : Symbol → Bool
  | .char c => c.toNat < 0x20
  | .stray _ => false

structure Scan where
  pieces : List Piece
  closing : Closing
  rest : List Symbol

def Scan.cons (p : Piece) (s : Scan) : Scan := { s with pieces := p :: s.pieces }

def scan : List Symbol → Scan
  | [] => ⟨[], .endOfText, []⟩
  | .char '"' :: cs => ⟨[], .quote, cs⟩
  | .char '\\' :: [] => ⟨[], .endOfText, []⟩
  | .char '\\' :: .char 'u' :: a :: b :: c :: d :: cs =>
    match hexUnit? a b c d with
    | some code => (scan cs).cons (.unit code)
    | none => ⟨[], .badHex, []⟩
  | .char '\\' :: .char 'u' :: cs => ⟨[], hexFault cs, []⟩
  | .char '\\' :: .char e :: cs =>
    match escape? e with
    | some c => (scan cs).cons (.escaped c)
    | none => ⟨[], .unknownEscape, []⟩
  | .char '\\' :: .stray _ :: _ => ⟨[], .unknownEscape, []⟩
  | c :: cs => if isControl c then ⟨[], .control, []⟩ else (scan cs).cons (.plain c)

theorem scan_length_le (cs : List Symbol) : (scan cs).rest.length ≤ cs.length := by
  fun_induction scan cs <;> simp_all [Scan.cons] <;> omega

def isHigh (code : Nat) : Bool := 0xD800 ≤ code && code ≤ 0xDBFF
def isLow (code : Nat) : Bool := 0xDC00 ≤ code && code ≤ 0xDFFF

def pair (high low : Nat) : Char := Char.ofNat ((high - 0xD800) * 1024 + (low - 0xDC00) + 0x10000)

def assemble (closing : Closing) : List Piece → Except FormFault (List Symbol)
  | [] =>
    match closing.fault? with
    | some f => .error f
    | none => .ok []
  | .plain s :: ps => (assemble closing ps).map (s :: ·)
  | .escaped c :: ps => (assemble closing ps).map (.char c :: ·)
  | .unit code :: ps =>
    if isLow code then .error .loneSurrogate
    else if isHigh code then
      match ps with
      | [] => .error closing.faultAfterHigh
      | .unit low :: ps =>
        if isLow low then (assemble closing ps).map (.char (pair code low) :: ·)
        else .error .loneSurrogate
      | _ :: _ => .error .brokenSurrogatePair
    else (assemble closing ps).map (.char (Char.ofNat code) :: ·)

def characters? : List Symbol → Option (List Char)
  | [] => some []
  | .char c :: cs => (characters? cs).map (c :: ·)
  | .stray _ :: _ => none

def Scan.read (s : Scan) : Except FormFault String :=
  match assemble s.closing s.pieces with
  | .error f => .error f
  | .ok symbols =>
    match characters? symbols with
    | some cs => .ok (String.ofList cs)
    | none => .error .badCodePoint

end DesignDocs.Json.Quoted
