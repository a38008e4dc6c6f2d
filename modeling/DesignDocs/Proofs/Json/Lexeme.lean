import DesignDocs.Json.Render
import DesignDocs.Json.Token
import DesignDocs.Proofs.Except

namespace DesignDocs.Json

open Text (Symbol)

/-- The characters as a reader meets them. -/
abbrev symbols (cs : List Char) : List Symbol := cs.map .char

/-- The text that follows a value in a written document: nothing, or a mark or line end that no
number contains. -/
def Follows : List Symbol → Prop
  | [] => True
  | .char c :: _ => c = ',' ∨ c = ']' ∨ c = '}' ∨ c = '\n'
  | .stray _ :: _ => False

namespace Numeral

theorem digit?_char {c : Char} (h : c.isDigit) : digit? (.char c) = some (c.toNat - '0'.toNat) := by
  rw [digit?, if_pos h]

/-- The text does not go on with a digit. -/
def Stops : List Symbol → Prop
  | [] => True
  | s :: _ => digit? s = none

theorem stops_of_follows {rest : List Symbol} (h : Follows rest) : Stops rest := by
  cases rest with
  | nil => trivial
  | cons s rest =>
    cases s with
    | stray b => exact h.elim
    | char c => obtain rfl | rfl | rfl | rfl := h <;> rfl

theorem takeDigits_of_stops {rest : List Symbol} (h : Stops rest) :
    takeDigits rest = ([], rest) := by
  cases rest with
  | nil => rfl
  | cons s rest =>
    rw [takeDigits, show digit? s = none from h]

theorem scanFraction_of_follows {rest : List Symbol} (h : Follows rest) :
    scanFraction rest = .ok (none, rest) := by
  cases rest with
  | nil => rfl
  | cons s rest =>
    cases s with
    | stray b => exact h.elim
    | char c => obtain rfl | rfl | rfl | rfl := h <;> rfl

theorem scanExponent_of_follows {rest : List Symbol} (h : Follows rest) :
    scanExponent rest = .ok (none, rest) := by
  cases rest with
  | nil => rfl
  | cons s rest =>
    cases s with
    | stray b => exact h.elim
    | char c => obtain rfl | rfl | rfl | rfl := h <;> rfl

/-- The digits that characters stand for. -/
def digits (cs : List Char) : List Nat := cs.map fun c ↦ c.toNat - '0'.toNat

theorem takeDigits_digits {ds : List Char} (hds : ∀ c ∈ ds, c.isDigit) {rest : List Symbol}
    (h : Stops rest) : takeDigits (symbols ds ++ rest) = (digits ds, rest) := by
  induction ds with
  | nil => exact takeDigits_of_stops h
  | cons c ds ih =>
    obtain ⟨hc, hds⟩ := List.forall_mem_cons.1 hds
    rw [symbols, List.map_cons, List.cons_append, takeDigits, digit?_char hc]
    rw [symbols] at ih
    rw [ih hds]
    rfl

theorem scanDigits_digits {ds : List Char} (hne : ds ≠ []) (hds : ∀ c ∈ ds, c.isDigit)
    {rest : List Symbol} (h : Stops rest) :
    scanDigits (symbols ds ++ rest) = .ok (digits ds, rest) := by
  rw [scanDigits, takeDigits_digits hds h]
  cases ds with
  | nil => exact absurd rfl hne
  | cons c ds => rfl

theorem digit_ne_zero {c : Char} (hc : c.isDigit) (h : c ≠ '0') : c.toNat - '0'.toNat ≠ 0 := by
  intro hzero
  refine h (Char.toNat_inj.1 ?_)
  have hlow : 48 ≤ c.toNat := (Char.isDigit_iff_toNat.1 hc).1
  change c.toNat - 48 = 0 at hzero
  change c.toNat = 48
  omega

/-- No digit comes after a leading zero. -/
theorem scanWhole_digits {c : Char} {cs : List Char} (hc : c.isDigit) (hcs : ∀ d ∈ cs, d.isDigit)
    (hlead : c = '0' → cs = []) {rest : List Symbol} (h : Stops rest) :
    scanWhole (symbols (c :: cs) ++ rest) = .ok (digits (c :: cs), rest) := by
  rw [symbols, List.map_cons, List.cons_append, scanWhole.eq_def]
  dsimp only
  rw [digit?_char hc]
  by_cases hzero : c = '0'
  · cases hzero
    rw [hlead rfl]
    cases rest with
    | nil => rfl
    | cons s rest =>
      have hs : digit? s = none := h
      simp [hs, digits]
  · have ht := takeDigits_digits hcs h
    split
    · next he => cases he
    · next he => exact absurd (Option.some.inj he) (digit_ne_zero hc hzero)
    · next d _ he =>
      cases he
      rw [ht]
      rfl

theorem takeSign_digit {c : Char} (hc : c.isDigit) (cs : List Symbol) :
    takeSign (.char c :: cs) = (false, .char c :: cs) := by
  rw [takeSign]
  rintro cs' he
  cases he
  exact absurd hc (by decide)

end Numeral

/-- The parts of a number as it is written; an exponent has its sign, whether negative or not. -/
structure NumberText where
  negative : Bool
  whole : List Char
  fraction : Option (List Char)
  exponent : Option (Bool × List Char)

namespace NumberText

def fractionChars (t : NumberText) : List Char :=
  match t.fraction with
  | none => []
  | some ds => '.' :: ds

def exponentChars (t : NumberText) : List Char :=
  match t.exponent with
  | none => []
  | some (negative, ds) => 'e' :: (if negative then '-' else '+') :: ds

def chars (t : NumberText) : List Char :=
  (if t.negative then ['-'] else []) ++ t.whole ++ t.fractionChars ++ t.exponentChars

def numeral (t : NumberText) : Numeral where
  negative := t.negative
  whole := Numeral.digits t.whole
  fraction := t.fraction.map Numeral.digits
  exponent := t.exponent.map fun e ↦ ⟨e.1, Numeral.digits e.2⟩

/-- Each part has digits, and the first is no zero before others. -/
structure WellFormed (t : NumberText) : Prop where
  whole : ∃ c cs, t.whole = c :: cs ∧ c.isDigit ∧ (∀ d ∈ cs, d.isDigit) ∧ (c = '0' → cs = [])
  fraction : ∀ ds ∈ t.fraction, ds ≠ [] ∧ ∀ d ∈ ds, d.isDigit
  exponent : ∀ e ∈ t.exponent, e.2 ≠ [] ∧ ∀ d ∈ e.2, d.isDigit

open Numeral (Stops scanFraction scanExponent)

variable {t : NumberText} {rest : List Symbol}

theorem scanExponent_exponentChars (h : t.WellFormed) (hf : Follows rest) :
    scanExponent (symbols t.exponentChars ++ rest) =
      .ok (t.exponent.map fun e ↦ ⟨e.1, Numeral.digits e.2⟩, rest) := by
  obtain ⟨negative, whole, fraction, exponent⟩ := t
  cases exponent with
  | none => exact Numeral.scanExponent_of_follows hf
  | some e =>
    obtain ⟨negative, ds⟩ := e
    obtain ⟨hne, hds⟩ := h.exponent _ rfl
    have hdigits := Numeral.scanDigits_digits hne hds (Numeral.stops_of_follows hf)
    cases negative
    · change scanExponent (.char 'e' :: .char '+' :: (symbols ds ++ rest)) = _
      rw [scanExponent, if_pos (.inl rfl), Numeral.takeExponentSign]
      dsimp only
      rw [hdigits]
      rfl
    · change scanExponent (.char 'e' :: .char '-' :: (symbols ds ++ rest)) = _
      rw [scanExponent, if_pos (.inl rfl), Numeral.takeExponentSign]
      dsimp only
      rw [hdigits]
      rfl

theorem stops_exponentChars (t : NumberText) (hf : Follows rest) :
    Stops (symbols t.exponentChars ++ rest) := by
  obtain ⟨negative, whole, fraction, exponent⟩ := t
  cases exponent with
  | none => exact Numeral.stops_of_follows hf
  | some e => rfl

theorem scanFraction_fractionChars (h : t.WellFormed) (hf : Follows rest) :
    scanFraction (symbols t.fractionChars ++ (symbols t.exponentChars ++ rest)) =
      .ok (t.fraction.map Numeral.digits, symbols t.exponentChars ++ rest) := by
  have hstops := t.stops_exponentChars hf
  obtain ⟨negative, whole, fraction, exponent⟩ := t
  cases fraction with
  | none =>
    cases exponent with
    | none => exact Numeral.scanFraction_of_follows hf
    | some e => rfl
  | some ds =>
    obtain ⟨hne, hds⟩ := h.fraction _ rfl
    change scanFraction (.char '.' :: (symbols ds ++ _)) = _
    rw [scanFraction, Numeral.scanDigits_digits hne hds hstops]
    rfl

theorem stops_fractionChars (t : NumberText) (hf : Follows rest) :
    Stops (symbols t.fractionChars ++ (symbols t.exponentChars ++ rest)) := by
  have hstops := t.stops_exponentChars hf
  obtain ⟨negative, whole, fraction, exponent⟩ := t
  cases fraction with
  | none => exact hstops
  | some ds => rfl

theorem scan_chars (h : t.WellFormed) (hf : Follows rest) :
    Numeral.scan (symbols t.chars ++ rest) = .ok (t.numeral, rest) := by
  obtain ⟨c, cs, hwhole, hc, hcs, hlead⟩ := h.whole
  have hscan := Numeral.scanWhole_digits hc hcs hlead (t.stops_fractionChars hf)
  rw [← hwhole] at hscan
  have hsign : Numeral.takeSign (symbols t.chars ++ rest) =
      (t.negative, symbols t.whole ++ (symbols t.fractionChars ++
        (symbols t.exponentChars ++ rest))) := by
    rw [chars, hwhole]
    simp only [symbols, List.map_append, List.append_assoc]
    cases t.negative with
    | true => rfl
    | false => exact Numeral.takeSign_digit hc _
  rw [Numeral.scan, hsign]
  dsimp only
  rw [hscan, Except.ok_bind]
  dsimp only
  rw [scanFraction_fractionChars h hf, Except.ok_bind]
  dsimp only
  rw [scanExponent_exponentChars h hf]
  rfl

theorem exists_chars_eq_cons (h : t.WellFormed) :
    ∃ c cs, t.chars = c :: cs ∧ (c = '-' ∨ c.isDigit) := by
  obtain ⟨c, cs, hwhole, hc, -, -⟩ := h.whole
  rw [chars, hwhole]
  cases t.negative with
  | true => exact ⟨'-', _, rfl, .inl rfl⟩
  | false => exact ⟨c, _, rfl, .inr hc⟩

end NumberText

namespace Numeral

/-- The decimal digits of a positive number do not begin with a zero. -/
theorem exists_toDigits_eq_cons {n : Nat} (hn : 0 < n) :
    ∃ c cs, Nat.toDigits 10 n = c :: cs ∧ c.toNat - '0'.toNat ≠ 0 := by
  induction n using Nat.strongRecOn with
  | ind n ih =>
    by_cases h : n < 10
    · refine ⟨n.digitChar, [], Nat.toDigits_of_lt_base h, ?_⟩
      have hv := Nat.toNat_digitChar_sub_48_of_lt_ten h
      change n.digitChar.toNat - 48 ≠ 0
      omega
    · obtain ⟨c, cs, hcs, hc⟩ := ih (n / 10) (by omega) (by omega)
      refine ⟨c, cs ++ [(n % 10).digitChar], ?_, hc⟩
      rw [Nat.toDigits_of_base_le (by decide) (by omega), hcs, List.cons_append]

theorem exists_toDigits_eq_cons_digits (n : Nat) : ∃ c cs, Nat.toDigits 10 n = c :: cs ∧
    c.isDigit ∧ (∀ d ∈ cs, d.isDigit) ∧ (c = '0' → cs = []) := by
  have hdigits : ∀ c ∈ Nat.toDigits 10 n, c.isDigit := fun c hc ↦
    Nat.isDigit_of_mem_toDigits (by decide) (by decide) hc
  obtain rfl | hn := Nat.eq_zero_or_pos n
  · exact ⟨'0', [], rfl, rfl, List.forall_mem_nil _, fun _ ↦ rfl⟩
  · obtain ⟨c, cs, hcs, hc⟩ := exists_toDigits_eq_cons hn
    rw [hcs, List.forall_mem_cons] at hdigits
    exact ⟨c, cs, hcs, hdigits.1, hdigits.2, fun h ↦ (hc (h ▸ Nat.sub_self _)).elim⟩

theorem ofDigits_toDigits (n : Nat) :
    ofDigits ((Nat.toDigits 10 n).map fun c ↦ c.toNat - '0'.toNat) = n := by
  have h := Nat.ofDigitChars_ten_toDigits (n := n)
  rw [Nat.ofDigitChars_eq_foldl] at h
  rw [ofDigits, List.foldl_map]
  simpa only [Nat.mul_comm] using h

end Numeral

namespace NumberText

def ofInt (i : Int) : NumberText := ⟨i < 0, Nat.toDigits 10 i.natAbs, none, none⟩

theorem wellFormed_ofInt (i : Int) : (ofInt i).WellFormed :=
  ⟨Numeral.exists_toDigits_eq_cons_digits i.natAbs, nofun, nofun⟩

theorem chars_ofInt (i : Int) : (ofInt i).chars = (toString i).toList := by
  cases i with
  | ofNat n =>
    change _ = (Nat.repr n).toList
    rw [Nat.toList_repr]
    simp [chars, ofInt, fractionChars, exponentChars]
  | negSucc n =>
    rw [Int.toString_eq_repr, Int.repr, String.toList_append, Nat.toList_repr]
    simp [chars, ofInt, fractionChars, exponentChars, Int.negSucc_lt_zero]

theorem number?_ofInt {i : Int} (h : FitsWord i) :
    (ofInt i).numeral.number? = some (.integer i h) := by
  have hi : (ofInt i).numeral.integer? = some i := by
    simp only [Numeral.integer?, numeral, ofInt, Option.map_none, Numeral.digits,
      Numeral.ofDigits_toDigits]
    by_cases hn : i < 0
    · have hzero : (i.natAbs == 0) = false := beq_eq_false_iff_ne.2 (by omega)
      have hneg : -(i.natAbs : Int) = i := by omega
      simp only [hn, decide_true, hzero, Bool.and_false, Bool.false_eq_true, if_false, if_true,
        hneg]
    · have hpos : (i.natAbs : Int) = i := by omega
      simp only [hn, decide_false, Bool.false_and, Bool.false_eq_true, if_false, hpos]
  rw [Numeral.number?, hi]
  exact dif_pos h

end NumberText

namespace Quoted

/-- How a character of a string is written. -/
def pieceOf (c : Char) : Piece :=
  if c = '"' ∨ c = '\\' ∨ c = '\x08' ∨ c = '\x0c' ∨ c = '\n' ∨ c = '\r' ∨ c = '\t' then .escaped c
  else if c.toNat < 0x20 then .unit c.toNat
  else .plain (.char c)

theorem hexDigit?_hexDigit : ∀ n < 16, hexDigit? (.char (hexDigit n)) = some n := by
  decide

theorem hexUnit?_of_lt {n : Nat} (h : n < 0x20) :
    hexUnit? (.char '0') (.char '0') (.char (hexDigit (n / 16))) (.char (hexDigit (n % 16))) =
      some n := by
  have hzero : hexDigit? (.char '0') = some 0 := rfl
  rw [hexUnit?, hzero, hexDigit?_hexDigit _ (by omega), hexDigit?_hexDigit _ (by omega)]
  simp only [Option.bind_eq_bind, Option.bind_some, Option.pure_def, Option.some.injEq]
  omega

theorem scan_plain {c : Char} (hquote : c ≠ '"') (hbackslash : c ≠ '\\') (hc : ¬ c.toNat < 0x20)
    (rest : List Symbol) : scan (.char c :: rest) = (scan rest).cons (.plain (.char c)) := by
  have hcontrol : isControl (.char c) = false := by simpa [isControl] using hc
  rw [scan.eq_def]
  split <;> simp_all

theorem scan_escaped (c : Char) (rest : List Symbol) :
    scan (symbols (escaped c) ++ rest) = (scan rest).cons (pieceOf c) := by
  by_cases hspecial : c = '"' ∨ c = '\\' ∨ c = '\x08' ∨ c = '\x0c' ∨ c = '\n' ∨ c = '\r' ∨ c = '\t'
  · obtain rfl | rfl | rfl | rfl | rfl | rfl | rfl := hspecial <;> rfl
  · rw [pieceOf, if_neg hspecial]
    simp only [not_or] at hspecial
    obtain ⟨h₁, h₂, h₃, h₄, h₅, h₆, h₇⟩ := hspecial
    rw [escaped, if_neg h₁, if_neg h₂, if_neg h₃, if_neg h₄, if_neg h₅, if_neg h₆, if_neg h₇]
    by_cases hc : c.toNat < 0x20
    · rw [if_pos hc, if_pos hc]
      simp only [symbols, List.map_cons, List.map_nil, List.cons_append, List.nil_append]
      rw [scan, hexUnit?_of_lt hc]
    · rw [if_neg hc, if_neg hc]
      exact scan_plain h₁ h₂ hc rest

theorem scan_quoted (cs : List Char) (rest : List Symbol) :
    scan (symbols (cs.flatMap escaped ++ ['"']) ++ rest) = ⟨cs.map pieceOf, .quote, rest⟩ := by
  induction cs with
  | nil => rfl
  | cons c cs ih =>
    have h := scan_escaped c (symbols (cs.flatMap escaped ++ ['"']) ++ rest)
    rw [ih] at h
    simpa [symbols, Scan.cons] using h

theorem assemble_pieceOf (cs : List Char) :
    assemble .quote (cs.map pieceOf) = .ok (cs.map .char) := by
  induction cs with
  | nil => rfl
  | cons c cs ih =>
    rw [List.map_cons, pieceOf]
    split
    · rw [assemble, ih]
      rfl
    · split
      · next hc =>
        have hlow : isLow c.toNat = false := by simp [isLow]; omega
        have hhigh : isHigh c.toNat = false := by simp [isHigh]; omega
        rw [assemble.eq_def]
        simp [hlow, hhigh, ih]
      · rw [assemble, ih]
        rfl

theorem characters?_char (cs : List Char) : characters? (cs.map .char) = some cs := by
  induction cs with
  | nil => rfl
  | cons c cs ih => rw [List.map_cons, characters?, ih, Option.map_some]

theorem read_pieceOf (s : String) (rest : List Symbol) :
    (Scan.mk (s.toList.map pieceOf) .quote rest).read = .ok s := by
  rw [Scan.read]
  dsimp only
  rw [assemble_pieceOf]
  dsimp only
  rw [characters?_char]
  simp

end Quoted

end DesignDocs.Json
