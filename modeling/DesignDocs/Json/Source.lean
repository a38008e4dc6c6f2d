import DesignDocs.Json.Basic
import DesignDocs.Json.Token

namespace DesignDocs.Json

mutual

/-- A document as a reader meets it, from left to right: every fault stands at the place where it
stops the reader. -/
inductive Source
  | null
  | bool (b : Bool)
  | number (n : Number)
  | string (s : String)
  /-- `surplus` stops a reader that wants no further item where there is one. -/
  | array (items : Items) (surplus : Fault)
  | object (members : Members)
  | fault (f : Fault)

inductive Items
  | done
  | fault (f : Fault)
  | cons (head : Source) (tail : Items)

/-- `skip` is the fault met by a reader that passes over the value of a member. -/
inductive Members
  | done
  | fault (f : Fault)
  | cons (name : String) (value : Source) (skip : Option Fault) (rest : Members)

end

def Members.stopped (name : String) (f : FormFault) : Members :=
  .cons name (.fault (.form f)) (some (.form f)) (.fault (.form f))

namespace Source

def ofScalar : Scalar → Source
  | .null => null
  | .bool b => bool b
  | .number n => number n

mutual

def ofJson : Json → Source
  | .null => null
  | .bool b => bool b
  | .number n => number n
  | .string s => string s
  | .array items => array (ofItems items) (.surplusItems items.length)
  | .object members => object (ofMembers members)

def ofItems : List Json → Items
  | [] => .done
  | v :: vs => .cons (ofJson v) (ofItems vs)

def ofMembers : List (String × Json) → Members
  | [] => .done
  | (k, v) :: ms => .cons k (ofJson v) none (ofMembers ms)

end

end Source

inductive Bracket
  | square
  | curly
  deriving DecidableEq

/-- What a reader that passes over a value looks for next. -/
inductive Place
  | value
  | opened
  | closed
  | name
  | colon
  deriving DecidableEq

namespace Skip

def endIn : Bracket → FormFault
  | .square => .endInArray
  | .curly => .endInObject

def noComma : Bracket → FormFault
  | .square => .noCommaInArray
  | .curly => .noCommaInObject

/-- The fault of a text that ends; `inside` are the open brackets, the innermost first. -/
def atEnd (place : Place) (inside : List Bracket) : FormFault :=
  match place, inside with
  | .value, _ | _, [] => .endInValue
  | _, b :: _ => endIn b

def close (b : Bracket) : Token → Bool
  | .closeBracket => b = .square
  | .closeBrace => b = .curly
  | _ => false

def onValue (inside : List Bracket) : Token → Except FormFault (Place × List Bracket)
  | .scalar o =>
    match o.skip with
    | none => .ok (.closed, inside)
    | some f => .error f
  | .string o =>
    match o.skip with
    | none => .ok (.closed, inside)
    | some f => .error f
  | .openBracket => .ok (.opened, .square :: inside)
  | .openBrace => .ok (.opened, .curly :: inside)
  | _ => .error .noValue

def onName (inside : List Bracket) : Token → Except FormFault (Place × List Bracket)
  | .string o =>
    match o.skip with
    | none => .ok (.colon, inside)
    | some f => .error f
  | _ => .error .nameNotString

def step (place : Place) (inside : List Bracket) (t : Token) :
    Except FormFault (Place × List Bracket) :=
  match place, inside with
  | .value, _ | _, [] => onValue inside t
  | .opened, b :: outer =>
    if close b t then .ok (.closed, outer)
    else
      match b with
      | .square => onValue inside t
      | .curly => onName inside t
  | .closed, b :: outer =>
    if close b t then .ok (.closed, outer)
    else
      match t, b with
      | .comma, .square => .ok (.value, inside)
      | .comma, .curly => .ok (.name, inside)
      | _, _ => .error (noComma b)
  | .name, _ :: _ => onName inside t
  | .colon, _ :: _ =>
    match t with
    | .colon => .ok (.value, inside)
    | _ => .error .noColon

def run (place : Place) (inside : List Bracket) : List Token → Except FormFault (List Token)
  | [] => .error (atEnd place inside)
  | t :: ts =>
    match step place inside t with
    | .error f => .error f
    | .ok (.closed, []) => .ok ts
    | .ok (place, inside) => run place inside ts

theorem run_length_lt {place : Place} {inside : List Bracket} {ts rest : List Token}
    (h : run place inside ts = .ok rest) : rest.length < ts.length := by
  induction ts generalizing place inside with
  | nil => simp [run] at h
  | cons t ts ih =>
    simp only [run] at h
    split at h
    · cases h
    · cases h; simp
    · exact Nat.lt_succ_of_lt (ih h)

end Skip

def skipValue (ts : List Token) : Except FormFault (List Token) := Skip.run .value [] ts

theorem skipValue_length_lt {ts rest : List Token} (h : skipValue ts = .ok rest) :
    rest.length < ts.length := Skip.run_length_lt h

/-- Objects and arrays may stand in one another so many deep. -/
def depthLimit : Nat := 127

namespace Source

mutual

/-- The value at the head of the tokens, inside `depth` objects and arrays. -/
def ofTokens (depth : Nat) (ts : List Token) : Source :=
  match ts with
  | [] => .fault (.form .endInValue)
  | .scalar o :: _ =>
    match o.read with
    | .ok value => ofScalar value
    | .error f => .fault (.form f)
  | .string o :: _ =>
    match o.read with
    | .ok s => .string s
    | .error f => .fault (.form f)
  | .openBracket :: rest =>
    .array (if depth < depthLimit then itemsOpened (depth + 1) rest else .fault (.form .tooDeep))
      (.form .trailingText)
  | .openBrace :: rest =>
    .object
      (if depth < depthLimit then membersOpened (depth + 1) rest else .fault (.form .tooDeep))
  | _ :: _ => .fault (.form .noValue)
termination_by 4 * ts.length

def itemsOpened (depth : Nat) (ts : List Token) : Items :=
  match ts with
  | [] => .fault (.form .endInArray)
  | .closeBracket :: _ => .done
  | ts => itemsFrom depth ts
termination_by 4 * ts.length + 2

def itemsFrom (depth : Nat) (ts : List Token) : Items :=
  .cons (ofTokens depth ts)
    (match _h : skipValue ts with
      | .ok rest => itemsAfter depth rest
      | .error f => .fault (.form f))
termination_by 4 * ts.length + 1
decreasing_by
  · omega
  · have := skipValue_length_lt _h; omega

def itemsAfter (depth : Nat) (ts : List Token) : Items :=
  match ts with
  | [] => .fault (.form .endInArray)
  | .closeBracket :: _ => .done
  | .comma :: [] => .fault (.form .endInValue)
  | .comma :: .closeBracket :: _ => .fault (.form .trailingComma)
  | .comma :: rest => itemsFrom depth rest
  | _ :: _ => .fault (.form .noCommaInArray)
termination_by 4 * ts.length

def membersOpened (depth : Nat) (ts : List Token) : Members :=
  match ts with
  | [] => .fault (.form .endInObject)
  | .closeBrace :: _ => .done
  | ts => membersFrom depth ts
termination_by 4 * ts.length + 2

def membersFrom (depth : Nat) (ts : List Token) : Members :=
  match ts with
  | .string o :: rest =>
    match o.read with
    | .error f => .fault (.form f)
    | .ok name =>
      match rest with
      | .colon :: rest =>
        match _h : skipValue rest with
        | .ok after => .cons name (ofTokens depth rest) none (membersAfter depth after)
        | .error f => .cons name (ofTokens depth rest) (some (.form f)) (.fault (.form f))
      | [] => .stopped name .endInObject
      | _ :: _ => .stopped name .noColon
  | _ => .fault (.form .nameNotString)
termination_by 4 * ts.length + 1
decreasing_by
  all_goals simp only [List.length_cons]
  · omega
  · have := skipValue_length_lt _h; omega
  · omega

def membersAfter (depth : Nat) (ts : List Token) : Members :=
  match ts with
  | [] => .fault (.form .endInObject)
  | .closeBrace :: _ => .done
  | .comma :: [] => .fault (.form .endInValue)
  | .comma :: .closeBrace :: _ => .fault (.form .trailingComma)
  | .comma :: rest => membersFrom depth rest
  | _ :: _ => .fault (.form .noCommaInObject)
termination_by 4 * ts.length

end

end Source

end DesignDocs.Json
