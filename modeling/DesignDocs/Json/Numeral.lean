import DesignDocs.Json.Number
import DesignDocs.Text.Utf8

namespace DesignDocs.Json

open Text (Symbol)

structure Exponent where
  negative : Bool
  digits : List Nat

/-- A number as it is spelled. Spellings without fraction and exponent that fit 64 bits are
integers, all others are floats. -/
structure Numeral where
  negative : Bool
  whole : List Nat
  fraction : Option (List Nat)
  exponent : Option Exponent

def digit? : Symbol → Option Nat
  | .char c => if c.isDigit then some (c.toNat - '0'.toNat) else none
  | .stray _ => none

def takeDigits : List Symbol → List Nat × List Symbol
  | [] => ([], [])
  | c :: cs =>
    match digit? c with
    | some d => (d :: (takeDigits cs).1, (takeDigits cs).2)
    | none => ([], c :: cs)

theorem takeDigits_length_le (cs : List Symbol) : (takeDigits cs).2.length ≤ cs.length := by
  induction cs with
  | nil => exact Nat.le_refl _
  | cons c cs ih =>
    simp only [takeDigits]
    split
    · simpa using Nat.le_succ_of_le ih
    · exact Nat.le_refl _

namespace Numeral

def takeSign : List Symbol → Bool × List Symbol
  | .char '-' :: cs => (true, cs)
  | cs => (false, cs)

/-- The whole part: a single zero, or digits that do not begin with one. As every scanner this gives
the part with the text after it, or the text that stands where a digit is missing. -/
def scanWhole : List Symbol → Except (List Symbol) (List Nat × List Symbol)
  | [] => .error []
  | c :: cs =>
    match digit? c with
    | none => .error (c :: cs)
    | some 0 =>
      match cs with
      | [] => .ok ([0], [])
      | c :: cs => if (digit? c).isSome then .error (c :: cs) else .ok ([0], c :: cs)
    | some d => .ok (d :: (takeDigits cs).1, (takeDigits cs).2)

def scanDigits (cs : List Symbol) : Except (List Symbol) (List Nat × List Symbol) :=
  match takeDigits cs with
  | ([], rest) => .error rest
  | (ds, rest) => .ok (ds, rest)

def scanFraction : List Symbol →
    Except (List Symbol) (Option (List Nat) × List Symbol)
  | .char '.' :: cs => do
    let (ds, rest) ← scanDigits cs
    return (some ds, rest)
  | cs => .ok (none, cs)

def takeExponentSign : List Symbol → Bool × List Symbol
  | .char '+' :: cs => (false, cs)
  | .char '-' :: cs => (true, cs)
  | cs => (false, cs)

def scanExponent : List Symbol →
    Except (List Symbol) (Option Exponent × List Symbol)
  | [] => .ok (none, [])
  | c :: cs =>
    if c = .char 'e' ∨ c = .char 'E' then do
      let (negative, cs) := takeExponentSign cs
      let (ds, rest) ← scanDigits cs
      return (some ⟨negative, ds⟩, rest)
    else .ok (none, c :: cs)

def scan (cs : List Symbol) : Except (List Symbol) (Numeral × List Symbol) := do
  let (negative, cs) := takeSign cs
  let (whole, cs) ← scanWhole cs
  let (fraction, cs) ← scanFraction cs
  let (exponent, cs) ← scanExponent cs
  return (⟨negative, whole, fraction, exponent⟩, cs)

theorem takeSign_length_le (cs : List Symbol) : (takeSign cs).2.length ≤ cs.length := by
  unfold takeSign; split <;> simp

theorem takeExponentSign_length_le (cs : List Symbol) :
    (takeExponentSign cs).2.length ≤ cs.length := by
  unfold takeExponentSign; split <;> simp

theorem scanWhole_length_lt {cs rest : List Symbol} {ds : List Nat}
    (h : scanWhole cs = .ok (ds, rest)) : rest.length < cs.length := by
  unfold scanWhole at h
  split at h
  · cases h
  · next c cs =>
    have := takeDigits_length_le cs
    split at h
    · cases h
    · split at h
      · cases h; simp
      · split at h <;> cases h; simp
    · cases h; simp; omega

theorem scanDigits_length_le {cs rest : List Symbol} {ds : List Nat}
    (h : scanDigits cs = .ok (ds, rest)) : rest.length ≤ cs.length := by
  have := takeDigits_length_le cs
  unfold scanDigits at h
  split at h
  · cases h
  · next _ _ _ e => cases h; simpa [e] using this

theorem scanFraction_length_le {cs rest : List Symbol} {ds : Option (List Nat)}
    (h : scanFraction cs = .ok (ds, rest)) : rest.length ≤ cs.length := by
  unfold scanFraction at h
  split at h
  · next cs =>
    cases e : scanDigits cs with
    | error _ => simp [e, bind, Except.bind] at h
    | ok p =>
      simp only [e, bind, Except.bind, pure, Except.pure, Except.ok.injEq, Prod.mk.injEq] at h
      have := scanDigits_length_le e
      simp only [List.length_cons, ← h.2]; omega
  · cases h; exact Nat.le_refl _

theorem scanExponent_length_le {cs rest : List Symbol} {e : Option Exponent}
    (h : scanExponent cs = .ok (e, rest)) : rest.length ≤ cs.length := by
  unfold scanExponent at h
  split at h
  · cases h; exact Nat.le_refl _
  · next c cs =>
    split at h
    · have hs := takeExponentSign_length_le cs
      cases e : scanDigits (takeExponentSign cs).2 with
      | error _ => simp [e, bind, Except.bind] at h
      | ok p =>
        simp only [e, bind, Except.bind, pure, Except.pure, Except.ok.injEq, Prod.mk.injEq] at h
        have := scanDigits_length_le e
        simp only [List.length_cons, ← h.2]; omega
    · cases h; exact Nat.le_refl _

theorem scan_length_lt {cs rest : List Symbol} {n : Numeral} (h : scan cs = .ok (n, rest)) :
    rest.length < cs.length := by
  have hs := takeSign_length_le cs
  cases hw : scanWhole (takeSign cs).2 with
  | error _ => simp [scan, hw, bind, Except.bind] at h
  | ok w =>
    cases hf : scanFraction w.2 with
    | error _ => simp [scan, hw, hf, bind, Except.bind] at h
    | ok f =>
      cases he : scanExponent f.2 with
      | error _ => simp [scan, hw, hf, he, bind, Except.bind] at h
      | ok e =>
        simp only [scan, hw, hf, he, bind, Except.bind, pure, Except.pure, Except.ok.injEq,
          Prod.mk.injEq] at h
        have := scanWhole_length_lt hw
        have := scanFraction_length_le hf
        have := scanExponent_length_le he
        rw [← h.2]; omega

/-- Appends digits to a significand while it fits 64 bits; the digits that did not fit remain. -/
def accumulate (significand : Nat) : List Nat → Nat × List Nat
  | [] => (significand, [])
  | d :: ds =>
    let next := significand * 10 + d
    if next < 0x10000000000000000 then accumulate next ds else (significand, d :: ds)

def ofDigits (ds : List Nat) : Nat := ds.foldl (fun n d ↦ n * 10 + d) 0

def Exponent.value (e : Exponent) : Int :=
  if e.negative then -(ofDigits e.digits) else ofDigits e.digits

def powerOfTen (n : Nat) : Float := Float.ofScientific 1 false n

/-- `x` times a power of ten by one rounded multiplication or division, after steps of `1e308`
for very small powers; none when the product is infinite. -/
def scale? (x : Float) (exponent : Int) : Option Float :=
  if exponent < -308 then
    if x == 0 then some x else scale? (x / powerOfTen 308) (exponent + 308)
  else if exponent < 0 then some (x / powerOfTen exponent.natAbs)
  else if exponent ≤ 308 then
    let y := x * powerOfTen exponent.natAbs
    if y.isInf then none else some y
  else if x == 0 then some x
  else none
termination_by (-exponent).toNat

/-- The significand and the power of ten that a numeral names; digits past 64 bits count in the
power only. -/
def parts (n : Numeral) : Nat × Int :=
  let (significand, dropped) := accumulate 0 n.whole
  let (significand, places) :=
    match n.fraction with
    | none => (significand, 0)
    | some ds =>
      let (significand, unread) := accumulate significand ds
      (significand, ds.length - unread.length)
  let exponent := (n.exponent.map Exponent.value).getD 0
  (significand, dropped.length - (places : Int) + exponent)

def float? (n : Numeral) : Option Float :=
  let (significand, exponent) := n.parts
  (scale? (UInt64.ofNat significand).toFloat exponent).map fun x ↦ if n.negative then -x else x

/-- The integer a numeral names. Negative zero is no integer. -/
def integer? (n : Numeral) : Option Int :=
  match n.fraction, n.exponent with
  | none, none =>
    let magnitude := ofDigits n.whole
    if n.negative && magnitude == 0 then none
    else some (if n.negative then -magnitude else magnitude)
  | _, _ => none

/-- The number a numeral names; none when it is out of range. -/
def number? (n : Numeral) : Option Number :=
  match n.integer? with
  | some i => if h : FitsWord i then some (.integer i h) else n.float?.bind Number.ofFloat?
  | none => n.float?.bind Number.ofFloat?

end Numeral

end DesignDocs.Json
