import DesignDocs.Proofs.Decimal.Shortest
import DesignDocs.Proofs.Json.Lexeme
import DesignDocs.Proofs.Json.Range

namespace DesignDocs.Json

open Decimal (Scientific)

namespace Numeral

theorem le_foldl (s : ℕ) (ds : List ℕ) : s ≤ ds.foldl (fun n d ↦ n * 10 + d) s := by
  induction ds generalizing s with
  | nil => exact le_rfl
  | cons d ds ih => exact (ih (s * 10 + d)).trans' (by omega)

theorem accumulate_eq {s : ℕ} {ds : List ℕ}
    (h : ds.foldl (fun n d ↦ n * 10 + d) s < 0x10000000000000000) :
    accumulate s ds = (ds.foldl (fun n d ↦ n * 10 + d) s, []) := by
  induction ds generalizing s with
  | nil => rfl
  | cons d ds ih =>
    rw [List.foldl_cons] at h ⊢
    rw [accumulate, if_pos ((le_foldl (s * 10 + d) ds).trans_lt h), ih h]

theorem ofDigits_append (ds es : List ℕ) :
    ofDigits (ds ++ es) = es.foldl (fun n d ↦ n * 10 + d) (ofDigits ds) := List.foldl_append

theorem parts_eq {n : Numeral} {s : ℕ} (hs : ofDigits (n.whole ++ n.fraction.getD []) = s)
    (h : s < 0x10000000000000000) :
    n.parts = (s, (n.exponent.map Exponent.value).getD 0 - (n.fraction.getD []).length) := by
  subst hs
  rw [ofDigits_append] at h ⊢
  have hwhole : accumulate 0 n.whole = (ofDigits n.whole, []) :=
    accumulate_eq ((le_foldl _ _).trans_lt h)
  obtain ⟨negative, whole, fraction, exponent⟩ := n
  rw [parts, hwhole]
  cases fraction with
  | none =>
    dsimp only [Option.getD_none, List.length_nil, List.foldl_nil]
    congr 1
    omega
  | some ds =>
    dsimp only [Option.getD_some] at h ⊢
    rw [accumulate_eq h]
    dsimp only [List.length_nil]
    congr 1
    omega

theorem integer?_eq_none {n : Numeral} (h : n.fraction.isSome ∨ n.exponent.isSome) :
    n.integer? = none := by
  obtain ⟨negative, whole, fraction, exponent⟩ := n
  cases fraction <;> cases exponent <;> first | rfl | simp at h

theorem ofDigits_zeros (n : ℕ) (ds : List ℕ) :
    ofDigits (List.replicate n 0 ++ ds) = ofDigits ds := by
  induction n with
  | zero => rfl
  | succ n ih => exact ih

theorem ofDigits_append_zeros (ds : List ℕ) (n : ℕ) :
    ofDigits (ds ++ List.replicate n 0) = ofDigits ds * 10 ^ n := by
  rw [ofDigits_append]
  induction n with
  | zero => simp
  | succ n ih =>
    rw [List.replicate_succ', List.foldl_append, ih, List.foldl_cons, List.foldl_nil, pow_succ]
    ring

end Numeral

namespace NumberText

section

variable (negative : Bool) (ds : List Char)

/-- The digits with zeros behind them. -/
def padded (zeros : ℕ) : NumberText :=
  ⟨negative, ds ++ List.replicate zeros '0', some ['0'], none⟩

/-- The digits with the point among them. -/
def pointed (whole : ℕ) : NumberText := ⟨negative, ds.take whole, some (ds.drop whole), none⟩

/-- The digits behind the point and zeros. -/
def fractional (zeros : ℕ) : NumberText :=
  ⟨negative, ['0'], some (List.replicate zeros '0' ++ ds), none⟩

/-- The digits with the point behind the first, and an exponent. -/
def scaled (exponent : ℤ) : NumberText where
  negative := negative
  whole := ds.take 1
  fraction := if ds.drop 1 = [] then none else some (ds.drop 1)
  exponent := some (exponent < 0, Nat.toDigits 10 exponent.natAbs)

end

/-- The form in which a float is laid out. -/
def ofScientific (negative : Bool) (d : Scientific) : NumberText :=
  let ds := Nat.toDigits 10 d.digits
  let whole : ℤ := ds.length + d.exponent
  if -5 < whole ∧ whole ≤ 16 then
    if 0 ≤ d.exponent then padded negative ds d.exponent.toNat
    else if 0 < whole then pointed negative ds whole.toNat
    else fractional negative ds (-whole).toNat
  else scaled negative ds (whole - 1)

variable {negative : Bool} {d : Scientific}

theorem chars_ofScientific (negative : Bool) (d : Scientific) :
    (ofScientific negative d).chars =
      (if negative then ['-'] else []) ++ (Number.layout.write d).toList := by
  have hlist : (toString d.digits).toList = Nat.toDigits 10 d.digits := Nat.toList_repr
  have hlength : ((toString d.digits).length : ℤ) = (Nat.toDigits 10 d.digits).length := by
    rw [← String.length_toList, hlist]
  rw [ofScientific, Decimal.Layout.write]
  simp only [Number.layout, hlength, hlist, Bool.and_eq_true, decide_eq_true_eq]
  split
  · split
    · rw [padded]
      simp [chars, fractionChars, exponentChars, Decimal.zeros]
    · split
      · rw [pointed]
        simp [chars, fractionChars, exponentChars]
      · rw [fractional]
        simp [chars, fractionChars, exponentChars, Decimal.zeros]
  · generalize ((Nat.toDigits 10 d.digits).length : ℤ) + d.exponent - 1 = exponent
    have hsign : (if exponent < 0 then "-" else "+").toList =
        [if exponent < 0 then '-' else '+'] := by split <;> rfl
    rw [scaled]
    cases (Nat.toDigits 10 d.digits).drop 1 <;>
      simp [chars, fractionChars, exponentChars, hsign]

section

variable {c : Char} {cs : List Char}

theorem isDigit_of_mem_zeros {n : ℕ} (hc : c ∈ List.replicate n '0') : c.isDigit := by
  rw [List.eq_of_mem_replicate hc]
  rfl

theorem wellFormed_padded (hlead : c ≠ '0') (hds : ∀ d ∈ c :: cs, d.isDigit) (zeros : ℕ) :
    (padded negative (c :: cs) zeros).WellFormed := by
  obtain ⟨hc, hcs⟩ := List.forall_mem_cons.1 hds
  refine ⟨⟨c, _, rfl, hc, ?_, fun h ↦ absurd h hlead⟩, ?_, nofun⟩
  · exact List.forall_mem_append.2 ⟨hcs, fun _ ↦ isDigit_of_mem_zeros⟩
  · rintro _ ⟨⟩
    exact ⟨nofun, List.forall_mem_singleton.2 rfl⟩

theorem wellFormed_pointed (hlead : c ≠ '0') (hds : ∀ d ∈ c :: cs, d.isDigit) {whole : ℕ}
    (hpos : 0 < whole) (hlt : whole < (c :: cs).length) :
    (pointed negative (c :: cs) whole).WellFormed := by
  obtain ⟨hc, hcs⟩ := List.forall_mem_cons.1 hds
  obtain ⟨n, rfl⟩ := Nat.exists_eq_add_one.2 hpos
  refine ⟨⟨c, cs.take n, rfl, hc, fun d hd ↦ hcs d (List.mem_of_mem_take hd),
    fun h ↦ absurd h hlead⟩, ?_, nofun⟩
  rintro _ ⟨⟩
  exact ⟨List.drop_eq_nil_iff.not.2 (not_le.2 hlt), fun d hd ↦ hds d (List.mem_of_mem_drop hd)⟩

theorem wellFormed_fractional (hds : ∀ d ∈ c :: cs, d.isDigit) (zeros : ℕ) :
    (fractional negative (c :: cs) zeros).WellFormed := by
  refine ⟨⟨'0', [], rfl, rfl, List.forall_mem_nil _, fun _ ↦ rfl⟩, ?_, nofun⟩
  rintro _ ⟨⟩
  exact ⟨List.append_ne_nil_of_right_ne_nil _ (List.cons_ne_nil c cs),
    List.forall_mem_append.2 ⟨fun _ ↦ isDigit_of_mem_zeros, hds⟩⟩

theorem wellFormed_scaled (hlead : c ≠ '0') (hds : ∀ d ∈ c :: cs, d.isDigit) (exponent : ℤ) :
    (scaled negative (c :: cs) exponent).WellFormed := by
  obtain ⟨hc, hcs⟩ := List.forall_mem_cons.1 hds
  refine ⟨⟨c, [], rfl, hc, List.forall_mem_nil _, fun h ↦ absurd h hlead⟩, ?_, ?_⟩
  · intro ds h
    rw [scaled] at h
    split at h
    · cases h
    · next hne =>
      cases h
      exact ⟨hne, hcs⟩
  · rintro _ ⟨⟩
    exact ⟨Nat.toDigits_ne_nil, fun c h ↦ Nat.isDigit_of_mem_toDigits (by decide) (by decide) h⟩

end

theorem wellFormed_ofScientific (negative : Bool) (hd : 0 < d.digits) :
    (ofScientific negative d).WellFormed := by
  obtain ⟨c, cs, hds, hc⟩ := Numeral.exists_toDigits_eq_cons hd
  have hdigits : ∀ c ∈ Nat.toDigits 10 d.digits, c.isDigit := fun c h ↦
    Nat.isDigit_of_mem_toDigits (by decide) (by decide) h
  have hlead : c ≠ '0' := by
    rintro rfl
    exact hc rfl
  rw [ofScientific]
  rw [hds] at hdigits ⊢
  split
  · split
    · exact wellFormed_padded hlead hdigits _
    · split
      · exact wellFormed_pointed hlead hdigits (by omega) (by omega)
      · exact wellFormed_fractional hdigits _
  · exact wellFormed_scaled hlead hdigits _

theorem integer?_ofScientific (negative : Bool) (d : Scientific) :
    (ofScientific negative d).numeral.integer? = none := by
  refine Numeral.integer?_eq_none ?_
  rw [ofScientific]
  split
  · left
    split
    · rfl
    · split <;> rfl
  · exact .inr rfl

theorem digits_append (ds es : List Char) :
    Numeral.digits (ds ++ es) = Numeral.digits ds ++ Numeral.digits es := List.map_append

theorem digits_zeros (n : ℕ) : Numeral.digits (List.replicate n '0') = List.replicate n 0 :=
  List.map_replicate

theorem parts_numeral {t : NumberText} {s : ℕ}
    (hs : Numeral.ofDigits (Numeral.digits (t.whole ++ t.fraction.getD [])) = s)
    (h : s < 0x10000000000000000) :
    t.numeral.parts = (s, (t.numeral.exponent.map Numeral.Exponent.value).getD 0 -
      (t.fraction.getD []).length) := by
  have hfraction : t.numeral.fraction.getD [] = Numeral.digits (t.fraction.getD []) := by
    rw [numeral]
    cases t.fraction <;> rfl
  rw [digits_append, ← hfraction] at hs
  rw [Numeral.parts_eq hs h, hfraction, Numeral.digits, List.length_map]

section

variable {ds : List Char} {s : ℕ}

theorem parts_padded (hs : Numeral.ofDigits (Numeral.digits ds) = s) {zeros : ℕ}
    (h : s * 10 ^ zeros * 10 < 0x10000000000000000) :
    (padded negative ds zeros).numeral.parts = (s * 10 ^ zeros * 10, -1) := by
  refine parts_numeral ?_ h
  rw [padded, Option.getD_some, digits_append, digits_append, digits_zeros, ← hs]
  rw [← Numeral.ofDigits_append_zeros]
  exact Numeral.ofDigits_append_zeros _ 1

theorem parts_pointed (hs : Numeral.ofDigits (Numeral.digits ds) = s)
    (h : s < 0x10000000000000000) (whole : ℕ) :
    (pointed negative ds whole).numeral.parts = (s, -((ds.length - whole : ℕ) : ℤ)) := by
  refine (parts_numeral (s := s) ?_ h).trans ?_
  · rw [pointed, Option.getD_some, List.take_append_drop, hs]
  · change (s, 0 - ((ds.drop whole).length : ℤ)) = _
    rw [List.length_drop, zero_sub]

theorem parts_fractional (hs : Numeral.ofDigits (Numeral.digits ds) = s)
    (h : s < 0x10000000000000000) (zeros : ℕ) :
    (fractional negative ds zeros).numeral.parts = (s, -((zeros + ds.length : ℕ) : ℤ)) := by
  refine (parts_numeral (s := s) ?_ h).trans ?_
  · rw [fractional, Option.getD_some, digits_append, digits_append, digits_zeros, ← hs]
    exact Numeral.ofDigits_zeros (zeros + 1) _
  · change (s, 0 - ((List.replicate zeros '0' ++ ds).length : ℤ)) = _
    rw [List.length_append, List.length_replicate, zero_sub]

theorem value_exponent (e : ℤ) :
    Numeral.Exponent.value ⟨decide (e < 0), Numeral.digits (Nat.toDigits 10 e.natAbs)⟩ = e := by
  rw [Numeral.Exponent.value, Numeral.digits, Numeral.ofDigits_toDigits]
  by_cases hneg : e < 0
  · rw [if_pos (decide_eq_true hneg)]
    omega
  · rw [if_neg (by simpa using hneg)]
    omega

theorem parts_scaled (hs : Numeral.ofDigits (Numeral.digits ds) = s)
    (h : s < 0x10000000000000000) (exponent : ℤ) :
    (scaled negative ds exponent).numeral.parts = (s, exponent - ((ds.length - 1 : ℕ) : ℤ)) := by
  have hfraction : (scaled negative ds exponent).fraction.getD [] = ds.drop 1 := by
    rw [scaled]
    split
    · next hnil => rw [hnil, Option.getD_none]
    · rfl
  refine (parts_numeral (s := s) ?_ h).trans ?_
  · rw [hfraction, scaled, List.take_append_drop, hs]
  · rw [hfraction, List.length_drop]
    exact congrArg (fun e ↦ (s, e - ((ds.length - 1 : ℕ) : ℤ))) (value_exponent exponent)

end

/-- The numeral names the decimal digit by digit, but for the point behind a whole number. -/
theorem parts_ofScientific (negative : Bool) (hle : d.digits ≤ 10 ^ 17) :
    (ofScientific negative d).numeral.parts = (d.digits, d.exponent) ∨
      ∃ s, s ≤ 10 ^ 18 ∧ (ofScientific negative d).numeral.parts = (s, -1) := by
  have hvalue : Numeral.ofDigits (Numeral.digits (Nat.toDigits 10 d.digits)) = d.digits :=
    Numeral.ofDigits_toDigits d.digits
  have hlt : d.digits < 10 ^ (Nat.toDigits 10 d.digits).length :=
    (Nat.length_toDigits_le_iff (by decide) Nat.length_toDigits_pos).1 le_rfl
  have hpos : 0 < (Nat.toDigits 10 d.digits).length := Nat.length_toDigits_pos
  have hword : d.digits < 0x10000000000000000 := hle.trans_lt (by decide)
  rw [ofScientific]
  generalize Nat.toDigits 10 d.digits = ds at hvalue hlt hpos ⊢
  split
  · next hwhole =>
    split
    · next hexponent =>
      right
      have hbound : d.digits * 10 ^ d.exponent.toNat ≤ 10 ^ 16 := by
        calc d.digits * 10 ^ d.exponent.toNat
            ≤ 10 ^ ds.length * 10 ^ d.exponent.toNat := by gcongr
          _ = 10 ^ (ds.length + d.exponent.toNat) := (pow_add ..).symm
          _ ≤ 10 ^ 16 := Nat.pow_le_pow_right (by decide) (by omega)
      exact ⟨_, by omega, parts_padded hvalue (by omega)⟩
    · left
      split
      · rw [parts_pointed hvalue hword]
        congr 1
        omega
      · rw [parts_fractional hvalue hword]
        congr 1
        omega
  · left
    rw [parts_scaled hvalue hword]
    congr 1
    omega

end NumberText

namespace Number

open Decimal (Binary)

/-- Only the largest floats come near to what is too large, as rounding may add to a number. -/
theorem value_shortest_lt {b : Binary} (h : b.IsFloat) (hlarge : b.q < 971 ∨ b.m + 8 ≤ 2 ^ 53) :
    b.shortest.value * (1 + 1 / 2 ^ 52) ^ 3 < 2 ^ (1024 : ℤ) := by
  have hhigh := h.shortest_spec.1.2
  have hm : (b.m : ℚ) + 1 ≤ 2 ^ 53 := mod_cast h.lt
  have hcast : (b.high : ℚ) = 4 * b.m + 2 := by rw [Binary.high]; push_cast; rfl
  rw [hcast] at hhigh
  have hfactor : (0 : ℚ) < (1 + 1 / 2 ^ 52) ^ 3 := by norm_num
  obtain hq | hm' := hlarge
  · calc b.shortest.value * (1 + 1 / 2 ^ 52) ^ 3
        ≤ (4 * b.m + 2) * 2 ^ (b.q - 2) * (1 + 1 / 2 ^ 52) ^ 3 := by gcongr
      _ ≤ 2 ^ 55 * 2 ^ (968 : ℤ) * (1 + 1 / 2 ^ 52) ^ 3 := by
        have hpow : (2 : ℚ) ^ (b.q - 2) ≤ 2 ^ (968 : ℤ) :=
          zpow_le_zpow_right₀ one_le_two (by omega)
        gcongr
        linarith only [hm]
      _ < 2 ^ 55 * 2 ^ (968 : ℤ) * 2 := mul_lt_mul_of_pos_left (by norm_num) (by positivity)
      _ = 2 ^ (1024 : ℤ) := by
        rw [← zpow_natCast, ← zpow_add₀ two_ne_zero, ← zpow_add_one₀ two_ne_zero]
        rfl
  · have hm'' : (b.m : ℚ) + 8 ≤ 2 ^ 53 := mod_cast hm'
    calc b.shortest.value * (1 + 1 / 2 ^ 52) ^ 3
        ≤ (4 * b.m + 2) * 2 ^ (b.q - 2) * (1 + 1 / 2 ^ 52) ^ 3 := by gcongr
      _ ≤ (2 ^ 55 - 30) * 2 ^ (969 : ℤ) * (1 + 1 / 2 ^ 52) ^ 3 := by
        have hpow : (2 : ℚ) ^ (b.q - 2) ≤ 2 ^ (969 : ℤ) :=
          zpow_le_zpow_right₀ one_le_two (by have := h.most; omega)
        refine mul_le_mul_of_nonneg_right ?_ hfactor.le
        exact mul_le_mul (by linarith only [hm'']) hpow (by positivity) (by norm_num)
      _ = (2 ^ 55 - 30) * (1 + 1 / 2 ^ 52) ^ 3 * 2 ^ (969 : ℤ) := mul_right_comm _ _ _
      _ < 2 ^ 55 * 2 ^ (969 : ℤ) := mul_lt_mul_of_pos_right (by norm_num) (by positivity)
      _ = 2 ^ (1024 : ℤ) := by
        rw [← zpow_natCast, ← zpow_add₀ two_ne_zero]
        rfl

/-- The largest floats, one by one. -/
theorem isFinite_largest : ∀ k < 7,
    let d := (Binary.mk (2 ^ 53 - 1 - k) 971 false).shortest.trimmed 17
    0 ≤ d.exponent ∧ d.exponent ≤ 308 ∧
      ((UInt64.ofNat d.digits).toFloat * Numeral.powerOfTen d.exponent.natAbs).isFinite ∧
      (-((UInt64.ofNat d.digits).toFloat * Numeral.powerOfTen d.exponent.natAbs)).isFinite := by
  decide +kernel

theorem inRange_largest {k : ℕ} (hk : k < 7) :
    let d := (Binary.mk (2 ^ 53 - 1 - k) 971 false).shortest.trimmed 17
    Numeral.InRange d.digits d.exponent := by
  obtain ⟨hexponent, hmost, hfinite, hneg⟩ := isFinite_largest k hk
  refine ⟨_, ?_, hfinite, hneg⟩
  rw [Numeral.scale?, if_neg (by omega), if_neg (by omega), if_pos hmost]
  dsimp only
  rw [Rounding.isInf_eq_false_of_isFinite hfinite]
  rfl

theorem inRange_shortest {b : Binary} (h : b.IsFloat) :
    Numeral.InRange (b.shortest.trimmed 17).digits (b.shortest.trimmed 17).exponent := by
  by_cases hlarge : b.q < 971 ∨ b.m + 8 ≤ 2 ^ 53
  · refine Numeral.inRange_of_lt (h.digits_trimmed_pos 17)
      ((h.digits_trimmed_le 17).trans (by decide)) ?_
    have hvalue := b.shortest.value_trimmed 17
    rw [Scientific.value] at hvalue
    rw [hvalue]
    exact value_shortest_lt h hlarge
  · obtain ⟨m, q, narrow⟩ := b
    obtain ⟨hm, hlt, -, hmost, hnarrow⟩ := h
    dsimp only at hm hlt hmost hnarrow hlarge
    obtain rfl : q = 971 := by omega
    obtain rfl : narrow = false := Bool.eq_false_iff.2 fun hn ↦ by
      have := hnarrow hn
      omega
    obtain ⟨k, hk, rfl⟩ : ∃ k < 7, m = 2 ^ 53 - 1 - k := ⟨2 ^ 53 - 1 - m, by omega, by omega⟩
    exact inRange_largest hk

/-- The exponent of a finite float is not the greatest there is. -/
theorem bits_lt_of_isFinite {x : Float} (hx : x.isFinite) :
    x.toBits.toNat % 0x8000000000000000 < 0x7FF0000000000000 := by
  change x.toModel.unpack.isFinite = true at hx
  by_contra hge
  have hfield : @Float.Model.UnpackedFloat.unpackExponent .binary64
      x.toModel.toBits.toBitVec = -1#11 := by
    rw [← BitVec.toNat_inj]
    change x.toModel.toBits.toNat >>> 52 % 2 ^ 11 = 2047
    have hlt := x.toModel.toBits.toNat_lt
    change ¬ x.toModel.toBits.toNat % _ < _ at hge
    rw [Nat.shiftRight_eq_div_pow]
    omega
  rw [Float.Model.unpack] at hx
  delta Float.Model.UnpackedFloat.unpack at hx
  dsimp only at hx
  rw [if_pos hfield] at hx
  split at hx <;> cases hx

theorem exists_number?_shortest (negative : Bool) {b : Binary} (h : b.IsFloat) : ∃ m,
    (NumberText.ofScientific negative (b.shortest.trimmed 17)).numeral.number? = some m := by
  have hinteger := NumberText.integer?_ofScientific negative (b.shortest.trimmed 17)
  obtain hparts | ⟨s, hs, hparts⟩ := NumberText.parts_ofScientific negative (h.digits_trimmed_le 17)
  · exact (inRange_shortest h).exists_number? hinteger hparts
  · exact (Numeral.inRange_of_neg hs (by decide)).exists_number? hinteger hparts

theorem exists_floatText (x : Float) (hx : x.isFinite) : ∃ t : NumberText,
    t.WellFormed ∧ t.chars = (layout.writeFloat x).toList ∧ ∃ m, t.numeral.number? = some m := by
  have hlt := bits_lt_of_isFinite hx
  rw [Decimal.Layout.writeFloat]
  generalize x.toBits.toNat = bits at hlt
  have hsign : (if bits / 0x8000000000000000 == 1 then "-" else "").toList =
      if decide (bits / 0x8000000000000000 = 1) then ['-'] else [] := by
    by_cases h : bits / 0x8000000000000000 = 1 <;> simp [h]
  generalize decide (bits / 0x8000000000000000 = 1) = negative at hsign
  split
  · have hdigits : ∀ c ∈ ['0'], c.isDigit := List.forall_mem_singleton.2 rfl
    have hrange : Numeral.InRange 0 (-1) := Numeral.inRange_of_neg (by decide) (by decide)
    refine ⟨.fractional negative ['0'] 0, NumberText.wellFormed_fractional hdigits 0, ?_,
      hrange.exists_number? rfl rfl⟩
    rw [String.toList_append, hsign]
    cases negative <;> rfl
  · next hzero =>
    have hpos : bits % 0x8000000000000000 ≠ 0 := by simpa using hzero
    have hfloat := Decimal.Binary.isFloat_ofBits (Nat.pos_of_ne_zero hpos) hlt
    refine ⟨.ofScientific negative _,
      NumberText.wellFormed_ofScientific negative (hfloat.digits_trimmed_pos 17), ?_,
      exists_number?_shortest negative hfloat⟩
    rw [NumberText.chars_ofScientific, String.toList_append, hsign]

theorem exists_text (n : Number) : ∃ t : NumberText,
    t.WellFormed ∧ t.chars = n.text.toList ∧ ∃ m, t.numeral.number? = some m := by
  cases n with
  | integer i hi =>
    exact ⟨.ofInt i, NumberText.wellFormed_ofInt i, NumberText.chars_ofInt i, _,
      NumberText.number?_ofInt hi⟩
  | float x hx => exact exists_floatText x hx

end Number

end DesignDocs.Json
