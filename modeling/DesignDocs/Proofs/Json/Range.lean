import DesignDocs.Proofs.Rounding

namespace DesignDocs.Json.Numeral

open Float.Model (UnpackedFloat)
open Rounding (Bounded)

/-- What a power of ten is rounded to, with all the digits that there can be. -/
def NearPower (n : ℕ) : UnpackedFloat → Prop
  | .finite _ m e _ =>
    2 ^ 52 ≤ m ∧ -52 ≤ e ∧ (0 < n → -51 ≤ e) ∧ m * 2 ^ (e + 52).toNat ≤ (2 ^ 52 + 1) * 10 ^ n
  | _ => False

instance (n : ℕ) : (u : UnpackedFloat) → Decidable (NearPower n u)
  | .finite .. => inferInstanceAs (Decidable (_ ∧ _))
  | .infinity _ | .notANumber | .zero _ => inferInstanceAs (Decidable False)

theorem nearPower_powerOfTen : ∀ n ≤ 308, NearPower n (powerOfTen n).toModel.unpack := by
  -- From the 23rd on the powers are rounded, each in its own way, so every one is computed.
  decide +kernel

theorem within_powerOfTen {n : ℕ} (hn : n ≤ 308) :
    Bounded (10 ^ n + 10 ^ n / 2 ^ 52) (powerOfTen n) := by
  have h := nearPower_powerOfTen n hn
  rw [Bounded]
  generalize (powerOfTen n).toModel.unpack = u at h
  cases u with
  | finite s m e hm =>
    obtain ⟨hlow, he, -, hle⟩ := h
    obtain ⟨k, hk⟩ : ∃ k : ℕ, (k : ℤ) = e + 52 := ⟨(e + 52).toNat, Int.toNat_of_nonneg (by omega)⟩
    have hvalue : (m : ℚ) * 2 ^ e ≤ 10 ^ n + 10 ^ n / 2 ^ 52 := by
      rw [show (e + 52).toNat = k by omega] at hle
      have hle' : (m : ℚ) * 2 ^ k ≤ (2 ^ 52 + 1) * 10 ^ n := mod_cast hle
      rw [show e = k - 52 by omega, zpow_sub₀ two_ne_zero, zpow_natCast, zpow_ofNat,
        ← mul_div_assoc, div_le_iff₀ (by positivity)]
      calc (m : ℚ) * 2 ^ k ≤ (2 ^ 52 + 1) * 10 ^ n := hle'
        _ = _ := by ring
    refine ⟨hvalue, hvalue.trans' ?_, by omega⟩
    have hlow' : (2 : ℚ) ^ 52 ≤ m := mod_cast hlow
    rw [zpow_add₀ two_ne_zero, zpow_ofNat, mul_comm]
    gcongr
  | _ => exact h.elim

variable {x : ℚ}

theorem within_div_powerOfTen {a : Float} {n : ℕ} (ha : Bounded x a) (hpos : 0 < n)
    (hn : n ≤ 308) (hx : 2 ≤ x) (htop : x < 2 ^ (1024 : ℤ)) :
    Bounded x (a / powerOfTen n) := by
  refine Rounding.within_unpack_pack ?_ htop
  have h := nearPower_powerOfTen n hn
  generalize (powerOfTen n).toModel.unpack = u at h ⊢
  cases u with
  | finite s m e hm => exact Rounding.within_div ha h.1 (h.2.2.1 hpos) hx
  | _ => exact h.elim

theorem exists_scale?_of_neg {a : Float} {exponent : ℤ} (ha : Bounded x a)
    (he : exponent < 0) (hx : 2 ≤ x) (htop : x < 2 ^ (1024 : ℤ)) :
    ∃ b, scale? a exponent = some b ∧ Bounded x b := by
  induction a, exponent using scale?.induct with
  | case1 a exponent hlow hzero =>
    rw [scale?, if_pos hlow, if_pos hzero]
    exact ⟨a, rfl, ha⟩
  | case2 a exponent hlow hzero ih =>
    rw [scale?, if_pos hlow, if_neg hzero]
    exact ih (within_div_powerOfTen ha (by decide) le_rfl hx htop) (by omega)
  | case3 a exponent hlow hneg =>
    rw [scale?, if_neg hlow, if_pos hneg]
    exact ⟨_, rfl, within_div_powerOfTen ha (by omega) (by omega) hx htop⟩
  | _ => omega

theorem exists_scale?_of_nonneg {a : Float} {n : ℕ} (ha : Bounded x a) (hn : n ≤ 308)
    (hx : 1 ≤ x) (htop : x * 10 ^ n * (1 + 1 / 2 ^ 52) ^ 2 < 2 ^ (1024 : ℤ)) :
    ∃ b, scale? a n = some b ∧ Bounded (x * 10 ^ n * (1 + 1 / 2 ^ 52) ^ 2) b := by
  have hpow : (1 : ℚ) ≤ 10 ^ n := one_le_pow₀ (by norm_num)
  have hbound : x * (10 ^ n + 10 ^ n / 2 ^ 52) + x * (10 ^ n + 10 ^ n / 2 ^ 52) / 2 ^ 52 =
      x * 10 ^ n * (1 + 1 / 2 ^ 52) ^ 2 := by ring
  have hprod : 1 ≤ x * (10 ^ n + 10 ^ n / 2 ^ 52) :=
    one_le_mul_of_one_le_of_one_le hx (le_add_of_le_of_nonneg hpow (by positivity))
  have hmul := ha.mul (within_powerOfTen hn) hprod (by rwa [hbound])
  rw [hbound] at hmul
  refine ⟨a * powerOfTen n, ?_, hmul⟩
  rw [scale?, if_neg (by omega), if_neg (by omega), if_pos (by omega), Int.natAbs_natCast]
  dsimp only
  rw [Rounding.isInf_eq_false_of_isFinite hmul.isFinite]
  rfl

theorem two_zpow_1024_lt : (2 : ℚ) ^ (1024 : ℤ) < 10 ^ 309 := by
  have h : 2 ^ 1024 < 10 ^ 309 := by decide +kernel
  exact_mod_cast h

theorem ten_zpow_lt {s : ℕ} {n : ℕ} (hs : 1 ≤ s) (h : (s : ℚ) * 10 ^ n < 2 ^ (1024 : ℤ)) :
    n ≤ 308 := by
  by_contra hn
  have hs' : (1 : ℚ) ≤ s := mod_cast hs
  have hpow : (10 : ℚ) ^ 309 ≤ 10 ^ n := pow_le_pow_right₀ (by norm_num) (by omega)
  have := calc (10 : ℚ) ^ 309 ≤ 10 ^ n := hpow
    _ ≤ s * 10 ^ n := le_mul_of_one_le_left (by positivity) hs'
    _ < 2 ^ (1024 : ℤ) := h
    _ < 10 ^ 309 := two_zpow_1024_lt
  exact lt_irrefl _ this

/-- The numeral that names `s * 10 ^ e`, with either sign, is in range. -/
def InRange (s : ℕ) (e : ℤ) : Prop :=
  ∃ a, scale? (UInt64.ofNat s).toFloat e = some a ∧ a.isFinite ∧ (-a).isFinite

theorem inRange_of_neg {s : ℕ} {e : ℤ} (hs : s ≤ 10 ^ 18) (he : e < 0) : InRange s e := by
  have hn : (UInt64.ofNat s).toNat = s := UInt64.toNat_ofNat_of_lt (hs.trans_lt (by decide))
  have htop : (10 ^ 18 + 10 ^ 18 / 2 ^ 52 : ℚ) < 2 ^ (1024 : ℤ) :=
    calc (10 ^ 18 + 10 ^ 18 / 2 ^ 52 : ℚ) < 2 ^ (64 : ℤ) := by norm_num
      _ < 2 ^ (1024 : ℤ) := zpow_lt_zpow_right₀ one_lt_two (by decide)
  have hfloat : Bounded (10 ^ 18 + 10 ^ 18 / 2 ^ 52) (UInt64.ofNat s).toFloat :=
    .toFloat (by rw [hn]; exact_mod_cast hs) (by norm_num) htop
  obtain ⟨a, ha, hwithin⟩ := exists_scale?_of_neg hfloat he (by norm_num) htop
  exact ⟨a, ha, hwithin.isFinite, (hwithin.neg htop).isFinite⟩

theorem inRange_of_nonneg {s n : ℕ} (hpos : 1 ≤ s) (hs : s ≤ 10 ^ 18)
    (h : (s : ℚ) * 10 ^ n * (1 + 1 / 2 ^ 52) ^ 3 < 2 ^ (1024 : ℤ)) : InRange s n := by
  have hn : (UInt64.ofNat s).toNat = s := UInt64.toNat_ofNat_of_lt (hs.trans_lt (by decide))
  have hpos' : (1 : ℚ) ≤ s := mod_cast hpos
  have hpow : (1 : ℚ) ≤ 10 ^ n := one_le_pow₀ (by norm_num)
  have hbound : ((s : ℚ) + s / 2 ^ 52) * 10 ^ n * (1 + 1 / 2 ^ 52) ^ 2 =
      s * 10 ^ n * (1 + 1 / 2 ^ 52) ^ 3 := by ring
  have hfloat : Bounded (s + s / 2 ^ 52) (UInt64.ofNat s).toFloat := by
    refine .toFloat (by rw [hn]) hpos' (h.trans_le' ?_)
    rw [← hbound, mul_assoc]
    refine le_mul_of_one_le_right (by positivity) ?_
    exact one_le_mul_of_one_le_of_one_le hpow (one_le_pow₀ (by norm_num))
  have hrange : (s : ℚ) * 10 ^ n < 2 ^ (1024 : ℤ) :=
    h.trans_le' (le_mul_of_one_le_right (by positivity) (one_le_pow₀ (by norm_num)))
  rw [← hbound] at h
  obtain ⟨a, ha, hwithin⟩ := exists_scale?_of_nonneg hfloat (ten_zpow_lt hpos hrange)
    (le_add_of_le_of_nonneg hpos' (by positivity)) h
  exact ⟨a, ha, hwithin.isFinite, (hwithin.neg h).isFinite⟩

theorem inRange_of_lt {s : ℕ} {e : ℤ} (hpos : 1 ≤ s) (hs : s ≤ 10 ^ 18)
    (h : (s : ℚ) * 10 ^ e * (1 + 1 / 2 ^ 52) ^ 3 < 2 ^ (1024 : ℤ)) : InRange s e := by
  obtain he | he := lt_or_ge e 0
  · exact inRange_of_neg hs he
  · obtain ⟨n, rfl⟩ := Int.eq_ofNat_of_zero_le he
    exact inRange_of_nonneg hpos hs (by simpa using h)

theorem InRange.exists_number? {n : Numeral} {s : ℕ} {e : ℤ} (h : InRange s e)
    (hi : n.integer? = none) (hparts : n.parts = (s, e)) : ∃ m, n.number? = some m := by
  obtain ⟨a, ha, hfinite, hneg⟩ := h
  have hfloat : ∃ b : Float, n.float? = some b ∧ b.isFinite := by
    rw [float?, hparts]
    dsimp only
    rw [ha]
    cases n.negative
    · exact ⟨a, rfl, hfinite⟩
    · exact ⟨-a, rfl, hneg⟩
  obtain ⟨b, hb, hfinite⟩ := hfloat
  refine ⟨.float b hfinite, ?_⟩
  rw [number?, hi]
  dsimp only
  rw [hb, Option.bind_some, Number.ofFloat?, dif_pos hfinite]

end DesignDocs.Json.Numeral
