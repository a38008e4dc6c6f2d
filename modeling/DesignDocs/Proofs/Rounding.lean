import DesignDocs.Json.Numeral
import Mathlib.Algebra.Order.Field.Power
import Mathlib.Data.Rat.Cast.Order
import Mathlib.Tactic.Positivity
import Mathlib.Tactic.Linarith
import Mathlib.Tactic.NormNum
import Mathlib.Tactic.Ring
import Mathlib.Tactic.GCongr

namespace DesignDocs.Rounding

open Float.Model (Format UnpackedFloat totalExponent)
open Float.Model.UnpackedFloat

/-- A finite float of magnitude `x` at most, and its last place is one that such floats have. -/
def Within (x : ℚ) : UnpackedFloat → Prop
  | .zero _ => True
  | .finite _ m e _ => (m : ℚ) * 2 ^ e ≤ x ∧ (2 : ℚ) ^ (e + 52) ≤ x ∧ -1074 ≤ e
  | _ => False

variable {x y : ℚ} {u v : UnpackedFloat}

theorem Within.mono (h : Within x u) (hxy : x ≤ y) : Within y u := by
  cases u with
  | notANumber | infinity => exact h
  | zero => trivial
  | finite s m e hm => exact ⟨h.1.trans hxy, h.2.1.trans hxy, h.2.2⟩

theorem targetExponent_eq (e : ℤ) : Format.binary64.targetExponent e = max (e - 53) (-1074) := rfl

theorem mantissa_shiftRight (m : ExtendedMantissa) (n : ℕ) :
    (m >>> n).mantissa = m.mantissa / 2 ^ n := by
  change (n.repeat ExtendedMantissa.shiftRightOne m).mantissa = _
  induction n with
  | zero => simp [Nat.repeat]
  | succ n ih =>
    rw [Nat.repeat, ExtendedMantissa.shiftRightOne, ih, Nat.div_div_eq_div_mul, pow_succ]

theorem roundedMantissa_le (m : ExtendedMantissa) : m.roundedMantissa ≤ m.mantissa + 1 := by
  obtain ⟨m, roundBit, stickyBit⟩ := m
  cases roundBit <;> cases stickyBit <;>
    simp only [ExtendedMantissa.roundedMantissa, ExtendedMantissa.accuracy,
      Accuracy.roundToNearestEven] <;> omega

theorem mantissa_ofMantissaAndAccuracy (m : ℕ) (accuracy : Accuracy) :
    (ExtendedMantissa.ofMantissaAndAccuracy m accuracy).mantissa = m := by
  unfold ExtendedMantissa.ofMantissaAndAccuracy
  split <;> rfl

variable {m : ℕ} {e : ℤ}

theorem shift_exponent (m : ℕ) (e : ℤ) (accuracy : Accuracy) :
    (shiftToTargetExponent Format.binary64 m e accuracy).2 =
      max e (max (m.log2 + e - 52) (-1074)) := by
  simp only [shiftToTargetExponent, shiftToExponent, targetExponent_eq, totalExponent]
  omega

theorem shift_mantissa_mul_le (m : ℕ) (e : ℤ) (accuracy : Accuracy) :
    ((shiftToTargetExponent Format.binary64 m e accuracy).1.mantissa : ℚ) *
      2 ^ (shiftToTargetExponent Format.binary64 m e accuracy).2 ≤ m * 2 ^ e := by
  simp only [shiftToTargetExponent, shiftToExponent, mantissa_shiftRight,
    mantissa_ofMantissaAndAccuracy]
  generalize (Format.binary64.targetExponent (totalExponent m e) - e).toNat = k
  have hfloor : ((m / 2 ^ k : ℕ) : ℚ) * 2 ^ k ≤ m := mod_cast Nat.div_mul_le_self m (2 ^ k)
  calc ((m / 2 ^ k : ℕ) : ℚ) * 2 ^ (e + k)
      = (m / 2 ^ k : ℕ) * 2 ^ k * 2 ^ e := by
        rw [zpow_add₀ two_ne_zero, zpow_natCast]; ring
    _ ≤ m * 2 ^ e := by gcongr

theorem two_zpow_log2_le (hm : 0 < m) (h : (m : ℚ) * 2 ^ e ≤ x) :
    (2 : ℚ) ^ (m.log2 + e) ≤ x := by
  have hlog : ((2 ^ m.log2 : ℕ) : ℚ) ≤ m := mod_cast Nat.log2_self_le hm.ne'
  push_cast at hlog
  refine h.trans' ?_
  rw [zpow_add₀ two_ne_zero, zpow_natCast]
  gcongr

/-- A shift ends at the last place there was, at the one that the leading digit asks for, or at the
least there is. -/
theorem two_zpow_shift_exponent_le (accuracy : Accuracy) (hm : (m : ℚ) * 2 ^ e ≤ x)
    (he : (2 : ℚ) ^ (e + 52) ≤ x) (hx : 1 ≤ x) :
    (2 : ℚ) ^ ((shiftToTargetExponent Format.binary64 m e accuracy).2 + 52) ≤ x := by
  rw [shift_exponent]
  obtain h | h | h : max e (max (m.log2 + e - 52) (-1074)) = e ∨
      max e (max (m.log2 + e - 52) (-1074)) = m.log2 + e - 52 ∨
      max e (max (m.log2 + e - 52) (-1074)) = -1074 := by omega
  · rwa [h]
  · rw [h, show (m.log2 + e - 52 + 52 : ℤ) = m.log2 + e by ring]
    obtain rfl | hpos := Nat.eq_zero_or_pos m
    · exact he.trans' (zpow_le_zpow_right₀ one_le_two (by simp))
    · exact two_zpow_log2_le hpos hm
  · rw [h]
    exact (zpow_le_one_of_nonpos₀ one_le_two (by decide)).trans hx

theorem within_roundWithAccuracy (sign : Sign) (accuracy : Accuracy) (hm : (m : ℚ) * 2 ^ e ≤ x)
    (he : (2 : ℚ) ^ (e + 52) ≤ x) (hx : 1 ≤ x) :
    Within (x + x / 2 ^ 52) (roundWithAccuracy Format.binary64 sign m e accuracy) := by
  have hplace := two_zpow_shift_exponent_le accuracy hm he hx
  have hfloor := shift_mantissa_mul_le m e accuracy
  rw [roundWithAccuracy]
  generalize shiftToTargetExponent Format.binary64 m e accuracy = shifted at hplace hfloor ⊢
  obtain ⟨first, e₁⟩ := shifted
  dsimp only at hplace hfloor ⊢
  have hrounded : (first.roundedMantissa : ℚ) * 2 ^ e₁ ≤ x + x / 2 ^ 52 := by
    have hle : (first.roundedMantissa : ℚ) ≤ first.mantissa + 1 :=
      mod_cast roundedMantissa_le first
    have hunit : (2 : ℚ) ^ e₁ ≤ x / 2 ^ 52 := by
      rw [zpow_add₀ two_ne_zero] at hplace
      rw [le_div_iff₀ (by positivity)]
      exact_mod_cast hplace
    calc (first.roundedMantissa : ℚ) * 2 ^ e₁
        ≤ (first.mantissa + 1) * 2 ^ e₁ := by gcongr
      _ = first.mantissa * 2 ^ e₁ + 2 ^ e₁ := by ring
      _ ≤ x + x / 2 ^ 52 := add_le_add (hfloor.trans hm) hunit
  have hgrown : x ≤ x + x / 2 ^ 52 := le_add_of_nonneg_right (by positivity)
  -- Rounding up may carry into one digit more, hence a second shift.
  have hplace' := two_zpow_shift_exponent_le .exact hrounded (hplace.trans hgrown)
    (hx.trans hgrown)
  have hfloor' := shift_mantissa_mul_le first.roundedMantissa e₁ .exact
  have hleast := shift_exponent first.roundedMantissa e₁ .exact
  generalize shiftToTargetExponent Format.binary64 first.roundedMantissa e₁ .exact = shifted
    at hplace' hfloor' hleast ⊢
  by_cases hzero : shifted.1.mantissa = 0
  · rw [dif_pos hzero]
    trivial
  · rw [dif_neg hzero]
    exact ⟨hfloor'.trans hrounded, hplace', by omega⟩

theorem toNat_one_append (m : ℕ) : (1#1 ++ BitVec.ofNat 52 m).toNat = 2 ^ 52 + m % 2 ^ 52 := by
  rw [BitVec.toNat_append, ← Nat.shiftLeft_add_eq_or_of_lt (BitVec.isLt _), BitVec.toNat_ofNat]
  rfl

theorem pack_finite (s : Sign) (hm : 0 < m) :
    pack Format.binary64 (.finite s m e hm) =
      if 2 ^ 11 ≤ (e + 1023 + 52).toNat + 1 then packedInfinity Format.binary64 s
      else if m.log2 + 1 = 53 then
        packComponents Format.binary64 s (BitVec.ofNat 11 (e + 1023 + 52).toNat)
          (BitVec.ofNat 52 m)
      else packComponents Format.binary64 s 0#11 (BitVec.ofNat 52 m) := rfl

/-- The finite float with the given fields, its sign apart. -/
theorem unpack_packComponents (s : Sign) {e : ℕ} (he : e + 1 < 2 ^ 11) (m : ℕ) :
    ∃ sign, unpack Format.binary64 (packComponents Format.binary64 s (BitVec.ofNat 11 e)
        (BitVec.ofNat 52 m)) =
      if e = 0 then
        if h : m % 2 ^ 52 = 0 then .zero sign
        else .finite sign (m % 2 ^ 52) (-1074) (Nat.pos_of_ne_zero h)
      else .finite sign (2 ^ 52 + m % 2 ^ 52) (e - 1075) (by omega) := by
  have hexp : (BitVec.ofNat 11 e).toNat = e := by
    rw [BitVec.toNat_ofNat, Nat.mod_eq_of_lt (by omega)]
  have hones : BitVec.ofNat 11 e ≠ -1#11 := fun h ↦ by
    have := congrArg BitVec.toNat h
    rw [hexp] at this
    exact absurd this (by simp; omega)
  have hmantissa : BitVec.ofNat 52 m = 0#52 ↔ m % 2 ^ 52 = 0 := by
    rw [← BitVec.toNat_inj, BitVec.toNat_ofNat]
    rfl
  generalize hb : packComponents Format.binary64 s (BitVec.ofNat 11 e) (BitVec.ofNat 52 m) = b
  have hfraction : unpackMantissa b = BitVec.ofNat 52 m := by
    rw [← hb]
    exact unpackMantissa_packComponents
  have hfield : unpackExponent b = BitVec.ofNat 11 e := by
    rw [← hb]
    exact unpackExponent_packComponents
  refine ⟨Sign.ofBitVec (unpackSign b), ?_⟩
  delta unpack
  dsimp only
  rw [if_neg (by rwa [hfield])]
  by_cases hzero : e = 0
  · rw [if_pos (by rw [hfield, hzero]), if_pos hzero]
    by_cases h : m % 2 ^ 52 = 0
    · rw [dif_pos (by rwa [hfraction, hmantissa]), dif_pos h]
    · rw [dif_neg (by rwa [hfraction, hmantissa]), dif_neg h, UnpackedFloat.finite.injEq]
      exact ⟨rfl, by rw [hfraction, BitVec.toNat_ofNat], by rw [hfield, hexp, hzero]; rfl⟩
  · have hne : BitVec.ofNat 11 e ≠ 0#11 := fun h ↦ hzero (by
      have := congrArg BitVec.toNat h
      rwa [hexp] at this)
    rw [if_neg (by rwa [hfield]), if_neg hzero, UnpackedFloat.finite.injEq]
    exact ⟨rfl, by rw [hfraction, toNat_one_append], by rw [hfield, hexp]; rfl⟩

theorem exponent_lt_of_within {sign : Sign} {hm : 0 < m} (h : Within x (.finite sign m e hm))
    (hx : x < 2 ^ (1024 : ℤ)) : e < 972 := by
  have := (zpow_lt_zpow_iff_right₀ one_lt_two).1 (h.2.1.trans_lt hx)
  omega

theorem within_unpack_normal {s : Sign} {hm : 0 < m} (h : Within x (.finite s m e hm))
    (hlog : m.log2 = 52) {biased : ℕ} (hbiased : biased = e + 1075) (htop : biased + 1 < 2 ^ 11) :
    Within x (unpack Format.binary64 (packComponents Format.binary64 s (BitVec.ofNat 11 biased)
      (BitVec.ofNat 52 m))) := by
  obtain ⟨hvalue, hplace, hleast⟩ := h
  obtain ⟨sign, hunpack⟩ := unpack_packComponents s htop m
  have hlow : 2 ^ 52 ≤ m := (Nat.le_log2 hm.ne').1 hlog.ge
  have hhigh : m < 2 ^ 53 := (Nat.log2_lt hm.ne').1 (by omega)
  have hmantissa : 2 ^ 52 + m % 2 ^ 52 = m := by omega
  rw [hunpack, if_neg (by omega)]
  refine ⟨?_, ?_, by omega⟩
  · rwa [hmantissa, hbiased, add_sub_cancel_right]
  · rwa [hbiased, add_sub_cancel_right]

theorem within_unpack_subnormal {s : Sign} {hm : 0 < m} (h : Within x (.finite s m e hm)) :
    Within x (unpack Format.binary64 (packComponents Format.binary64 s (BitVec.ofNat 11 0)
      (BitVec.ofNat 52 m))) := by
  obtain ⟨hvalue, hplace, hleast⟩ := h
  obtain ⟨sign, hunpack⟩ := unpack_packComponents s (e := 0) (by decide) m
  rw [hunpack, if_pos rfl]
  by_cases hfraction : m % 2 ^ 52 = 0
  · rw [dif_pos hfraction]
    trivial
  · rw [dif_neg hfraction]
    refine ⟨hvalue.trans' ?_, hplace.trans' ?_, le_rfl⟩
    · have hmod : ((m % 2 ^ 52 : ℕ) : ℚ) ≤ m := mod_cast Nat.mod_le m (2 ^ 52)
      have hpow : (2 : ℚ) ^ (-1074 : ℤ) ≤ 2 ^ e := zpow_le_zpow_right₀ one_le_two hleast
      gcongr
    · exact zpow_le_zpow_right₀ one_le_two (by omega)

/-- What is stored is not larger than what was rounded, and finite if that is small enough. -/
theorem within_unpack_pack (h : Within x u) (hx : x < 2 ^ (1024 : ℤ)) :
    Within x (unpack Format.binary64 (pack Format.binary64 u)) := by
  cases u with
  | notANumber | infinity => exact h.elim
  | zero s =>
    obtain ⟨sign, hunpack⟩ := unpack_packComponents s (e := 0) (by decide) 0
    change Within x (unpack Format.binary64 (packComponents Format.binary64 s (BitVec.ofNat 11 0)
      (BitVec.ofNat 52 0)))
    rw [hunpack]
    trivial
  | finite s m e hm =>
    have htop := exponent_lt_of_within h hx
    obtain ⟨biased, hbiased⟩ : ∃ biased : ℕ, (biased : ℤ) = e + 1075 :=
      ⟨(e + 1075).toNat, Int.toNat_of_nonneg (by have := h.2.2; omega)⟩
    rw [pack_finite, show (e + 1023 + 52).toNat = biased by omega, if_neg (by omega)]
    split
    · next hnormal =>
      exact within_unpack_normal h (Nat.succ.inj hnormal) hbiased (by omega)
    · exact within_unpack_subnormal h

theorem within_round (sign : Sign) (hm : 0 < m) (h : (m : ℚ) * 2 ^ e ≤ x) (hx : 1 ≤ x) :
    Within (x + x / 2 ^ 52) (UnpackedFloat.round Format.binary64 sign m e) := by
  have hlead := two_zpow_log2_le hm h
  rw [UnpackedFloat.round]
  dsimp only [decreaseExponent]
  obtain ⟨k, hk⟩ : ∃ k : ℕ, (e - Format.binary64.targetExponent (totalExponent m e)).toNat = k :=
    ⟨_, rfl⟩
  rw [hk]
  rw [targetExponent_eq, totalExponent] at hk
  refine within_roundWithAccuracy sign _ ?_ ?_ hx
  · rw [Nat.shiftLeft_eq, Nat.cast_mul, Nat.cast_pow, Nat.cast_ofNat, mul_assoc, ← zpow_natCast,
      ← zpow_add₀ two_ne_zero, add_sub_cancel]
    exact h
  · obtain hle | hle : e - k + 52 ≤ m.log2 + e ∨ e - k + 52 ≤ 0 := by omega
    · exact hlead.trans' (zpow_le_zpow_right₀ one_le_two hle)
    · exact hx.trans' (zpow_le_one_of_nonpos₀ one_le_two hle)

theorem within_ofNat {n : ℕ} (hn : (n : ℚ) ≤ x) (hx : 1 ≤ x) :
    Within (x + x / 2 ^ 52) (ofNat Format.binary64 n) := by
  rw [ofNat, ofInt, UnpackedFloat.normalize]
  split
  · next h => exact absurd (Int.compare_eq_lt.1 h) (by omega)
  · trivial
  · next h =>
    have hpos : 0 < n := by
      have := Int.compare_eq_gt.1 h
      omega
    exact within_round _ hpos (by simpa using hn) hx

theorem within_mul (hu : Within x u) (hv : Within y v) (hxy : 1 ≤ x * y) :
    Within (x * y + x * y / 2 ^ 52) (mul Format.binary64 u v) := by
  cases u with
  | notANumber | infinity => exact hu.elim
  | zero s =>
    cases v with
    | notANumber | infinity => exact hv.elim
    | zero | finite => trivial
  | finite s m e hm =>
    cases v with
    | notANumber | infinity => exact hv.elim
    | zero => trivial
    | finite t n f hn =>
      obtain ⟨hum, hue, -⟩ := hu
      obtain ⟨hvm, hve, -⟩ := hv
      have hx : 0 ≤ x := hue.trans' (by positivity)
      change Within _ (roundWithAccuracy Format.binary64 (s * t) (m * n) (e + f) .exact)
      refine within_roundWithAccuracy _ _ ?_ ?_ hxy
      · calc ((m * n : ℕ) : ℚ) * 2 ^ (e + f) = m * 2 ^ e * (n * 2 ^ f) := by
              rw [Nat.cast_mul, zpow_add₀ two_ne_zero]; ring
          _ ≤ x * y := by gcongr
      · calc (2 : ℚ) ^ (e + f + 52) ≤ 2 ^ (e + 52 + (f + 52)) :=
              zpow_le_zpow_right₀ one_le_two (by omega)
          _ = 2 ^ (e + 52) * 2 ^ (f + 52) := zpow_add₀ two_ne_zero _ _
          _ ≤ x * y := by gcongr

theorem two_le_mul_zpow {n : ℕ} {f : ℤ} (hlow : 2 ^ 52 ≤ n) (hf : -51 ≤ f) :
    (2 : ℚ) ≤ n * 2 ^ f := by
  have hn : ((2 ^ 52 : ℕ) : ℚ) ≤ n := mod_cast hlow
  have hpow := zpow_le_zpow_right₀ (one_le_two (α := ℚ)) hf
  calc (2 : ℚ) = ((2 ^ 52 : ℕ) : ℚ) * 2 ^ (-51 : ℤ) := by norm_num
    _ ≤ n * 2 ^ f := by gcongr

theorem quotient_mul_le (m n : ℕ) {k : ℕ} {t f : ℤ} (hk : k + (t + f) = e) :
    ((m <<< k / n : ℕ) : ℚ) * 2 ^ t * (n * 2 ^ f) ≤ m * 2 ^ e := by
  have hquotient : ((m <<< k / n : ℕ) : ℚ) * n ≤ m * 2 ^ k := by
    rw [Nat.shiftLeft_eq]
    exact_mod_cast Nat.div_mul_le_self (m * 2 ^ k) n
  calc ((m <<< k / n : ℕ) : ℚ) * 2 ^ t * (n * 2 ^ f)
      = (m <<< k / n : ℕ) * n * (2 ^ t * 2 ^ f) := by ring
    _ ≤ m * 2 ^ k * (2 ^ t * 2 ^ f) := by gcongr
    _ = m * 2 ^ e := by
      rw [mul_assoc, ← zpow_natCast, ← zpow_add₀ two_ne_zero, ← zpow_add₀ two_ne_zero, hk]

/-- A divisor that is two at least leaves enough room for rounding. -/
theorem within_div {sign : Sign} {n : ℕ} {f : ℤ} {hn : 0 < n} (hu : Within x u) (hlow : 2 ^ 52 ≤ n)
    (hf : -51 ≤ f) (hx : 2 ≤ x) :
    Within x (div Format.binary64 u (.finite sign n f hn)) := by
  cases u with
  | notANumber | infinity => exact hu.elim
  | zero => trivial
  | finite s m e hm =>
    obtain ⟨hum, -, -⟩ := hu
    have hlead := two_zpow_log2_le hm hum
    have hlog : 52 ≤ n.log2 := (Nat.le_log2 hn.ne').2 hlow
    change Within x (roundWithAccuracy Format.binary64 (s / sign)
      (divCore Format.binary64 m e n f).1 (divCore Format.binary64 m e n f).2.1
      (divCore Format.binary64 m e n f).2.2)
    rw [divCore]
    dsimp only
    obtain ⟨t, ht⟩ : ∃ t, min (e - f) (Format.binary64.targetExponent
        (totalExponent m e - totalExponent n f)) = t := ⟨_, rfl⟩
    rw [ht]
    rw [targetExponent_eq, totalExponent, totalExponent] at ht
    obtain ⟨k, hk⟩ : ∃ k : ℕ, (e - f - t).toNat = k := ⟨_, rfl⟩
    rw [hk]
    have hhalf : x / 2 + x / 2 / 2 ^ 52 ≤ x := by linarith
    refine (within_roundWithAccuracy _ _ ?_ ?_ (by linarith)).mono hhalf
    · have hdivisor := two_le_mul_zpow hlow hf
      rw [le_div_iff₀ two_pos]
      calc ((m <<< k / n : ℕ) : ℚ) * 2 ^ t * 2
          ≤ (m <<< k / n : ℕ) * 2 ^ t * (n * 2 ^ f) := by gcongr
        _ ≤ m * 2 ^ e := quotient_mul_le m n (by omega)
        _ ≤ x := hum
    · obtain hle | hle : t + 52 ≤ m.log2 + e - 1 ∨ t + 52 ≤ 0 := by omega
      · have hpow := zpow_le_zpow_right₀ (one_le_two (α := ℚ)) hle
        rw [le_div_iff₀ two_pos]
        calc (2 : ℚ) ^ (t + 52) * 2 ≤ 2 ^ (m.log2 + e - 1) * 2 := by gcongr
          _ = 2 ^ (m.log2 + e) := by rw [← zpow_add_one₀ two_ne_zero, sub_add_cancel]
          _ ≤ x := hlead
      · exact (zpow_le_one_of_nonpos₀ one_le_two hle).trans (by linarith)

theorem isInf_eq_false_of_isFinite {a : Float} (h : a.isFinite) : a.isInf = false := by
  change a.toModel.unpack.isFinite = true at h
  change a.toModel.unpack.isInf = false
  cases hu : a.toModel.unpack with
  | infinity => rw [hu] at h; cases h
  | notANumber | zero | finite => rfl

/-- A finite float of magnitude `x` at most. -/
def Bounded (x : ℚ) (a : Float) : Prop := Within x a.toModel.unpack

namespace Bounded

variable {a b : Float}

theorem isFinite (h : Bounded x a) : a.isFinite := by
  change a.toModel.unpack.isFinite = true
  cases hu : a.toModel.unpack with
  | notANumber | infinity => rw [Bounded, hu] at h; exact h.elim
  | zero | finite => rfl

theorem toFloat {n : UInt64} (hn : (n.toNat : ℚ) ≤ x) (hx : 1 ≤ x)
    (htop : x + x / 2 ^ 52 < 2 ^ (1024 : ℤ)) : Bounded (x + x / 2 ^ 52) n.toFloat :=
  within_unpack_pack (within_ofNat hn hx) htop

theorem mul (ha : Bounded x a) (hb : Bounded y b) (hxy : 1 ≤ x * y)
    (htop : x * y + x * y / 2 ^ 52 < 2 ^ (1024 : ℤ)) :
    Bounded (x * y + x * y / 2 ^ 52) (a * b) :=
  within_unpack_pack (within_mul ha hb hxy) htop

theorem neg (ha : Bounded x a) (htop : x < 2 ^ (1024 : ℤ)) : Bounded x (-a) := by
  refine within_unpack_pack ?_ htop
  rw [Bounded] at ha
  cases hu : a.toModel.unpack with
  | notANumber | infinity => rw [hu] at ha; exact ha.elim
  | zero => trivial
  | finite => rw [hu] at ha; exact ha

end Bounded

end DesignDocs.Rounding
