import DesignDocs.Json.Numeral
import DesignDocs.Json.Quoted

namespace DesignDocs.Json

open Text (Symbol)

inductive Scalar
  | null
  | bool (b : Bool)
  | number (n : Number)

/-- What comes of a token when its value is wanted, and when it is skipped. -/
structure Outcome (α : Type) where
  read : Except FormFault α
  skip : Option FormFault

namespace Outcome

def sound {α : Type} (a : α) : Outcome α := ⟨.ok a, none⟩
def broken {α : Type} (f : FormFault) : Outcome α := ⟨.error f, some f⟩

end Outcome

/-- A token may be faulty for a reader and sound for one that skips it, so it keeps both outcomes;
the tokens of a text end with the first that cannot be skipped. -/
inductive Token
  | openBrace
  | closeBrace
  | openBracket
  | closeBracket
  | comma
  | colon
  | scalar (o : Outcome Scalar)
  | string (o : Outcome String)

namespace Token

def isSpace (c : Char) : Bool := c == ' ' || c == '\n' || c == '\t' || c == '\r'

def mark? : Char → Option Token
  | '{' => some openBrace
  | '}' => some closeBrace
  | '[' => some openBracket
  | ']' => some closeBracket
  | ',' => some comma
  | ':' => some colon
  | _ => none

/-- The words that stand for values, by their first character. -/
def word? : Char → Option (List Char × Scalar)
  | 'n' => some (['u', 'l', 'l'], .null)
  | 't' => some (['r', 'u', 'e'], .bool true)
  | 'f' => some (['a', 'l', 's', 'e'], .bool false)
  | _ => none

def afterWord : List Char → List Symbol → Except FormFault (List Symbol)
  | [], cs => .ok cs
  | _ :: _, [] => .error .endInValue
  | w :: ws, c :: cs => if c = .char w then afterWord ws cs else .error .badWord

/-- Skipping a number does not look at its size, and a missing digit is all that it reports. -/
def ofNumeral (n : Numeral) : Token :=
  match n.number? with
  | some value => scalar (.sound (.number value))
  | none => scalar ⟨.error .numberTooLarge, none⟩

def ofBrokenNumeral (rest : List Symbol) : Token :=
  scalar ⟨.error (if rest.isEmpty then .endInValue else .badNumber), some .badNumber⟩

def ofQuoted (s : Quoted.Scan) : Token := string ⟨s.read, s.closing.fault?⟩

theorem afterWord_length_le {ws : List Char} {cs rest : List Symbol}
    (h : afterWord ws cs = .ok rest) : rest.length ≤ cs.length := by
  induction ws generalizing cs with
  | nil => simp only [afterWord, Except.ok.injEq] at h; simp [h]
  | cons w ws ih =>
    cases cs with
    | nil => simp [afterWord] at h
    | cons c cs =>
      simp only [afterWord] at h
      split at h
      · exact Nat.le_succ_of_le (ih h)
      · cases h

def scan (cs : List Symbol) : List Token :=
  match cs with
  | [] => []
  | .stray _ :: _ => [scalar (.broken .noValue)]
  | .char c :: rest =>
    if isSpace c then scan rest
    else
      match mark? c with
      | some token => token :: scan rest
      | none =>
        if c = '"' then
          let quoted := Quoted.scan rest
          ofQuoted quoted :: scan quoted.rest
        else
          match word? c with
          | some (tail, value) =>
            match _h : afterWord tail rest with
            | .ok after => scalar (.sound value) :: scan after
            | .error f => [scalar (.broken f)]
          | none =>
            if c = '-' || c.isDigit then
              match _h : Numeral.scan (.char c :: rest) with
              | .ok (n, after) => ofNumeral n :: scan after
              | .error after => [ofBrokenNumeral after]
            else [scalar (.broken .noValue)]
termination_by cs.length
decreasing_by
  · simp
  · simp
  · exact Nat.lt_succ_of_le (Quoted.scan_length_le rest)
  · exact Nat.lt_succ_of_le (afterWord_length_le _h)
  · exact Numeral.scan_length_lt _h

end Token

end DesignDocs.Json
