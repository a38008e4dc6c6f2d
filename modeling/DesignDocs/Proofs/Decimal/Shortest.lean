import DesignDocs.Decimal.Shortest
import Mathlib.Algebra.Order.Field.Power
import Mathlib.Data.Rat.Cast.Order
import Mathlib.Tactic.FieldSimp
import Mathlib.Tactic.GCongr
import Mathlib.Tactic.Linarith
import Mathlib.Tactic.NormNum
import Mathlib.Tactic.Positivity
import Mathlib.Tactic.Ring

namespace DesignDocs.Decimal

theorem pow_toNat {a : ℚ} (ha : a ≠ 0) (k : ℤ) : a ^ k.toNat = a ^ (-k).toNat * a ^ k := by
  rw [← zpow_natCast, ← zpow_natCast, ← zpow_add₀ ha]
  congr 1
  omega

/-- Both parts of a scale are counted in one unit. -/
theorem Scale.exists_unit (q e : ℤ) : ∃ c : ℚ, 0 < c ∧
    ((Scale.at q e).quarter : ℚ) = c * 2 ^ (q - 2) ∧ ((Scale.at q e).place : ℚ) = c * 10 ^ e := by
  refine ⟨2 ^ (-(q - 2)).toNat * 10 ^ (-e).toNat, by positivity, ?_, ?_⟩
  · simp only [Scale.at, Nat.pow_eq, Nat.cast_mul, Nat.cast_pow, Nat.cast_ofNat]
    rw [pow_toNat two_ne_zero (q - 2)]
    ring
  · simp only [Scale.at, Nat.pow_eq, Nat.cast_mul, Nat.cast_pow, Nat.cast_ofNat]
    rw [pow_toNat (by norm_num) e]
    ring

def Scientific.value (d : Scientific) : ℚ := d.digits * 10 ^ d.exponent

namespace Scientific

theorem digits_pos_iff {d : Scientific} : 0 < d.digits ↔ 0 < d.value := by
  rw [value, mul_pos_iff_of_pos_right (by positivity), Nat.cast_pos]

theorem value_trimmed (d : Scientific) (n : ℕ) : (d.trimmed n).value = d.value := by
  induction n generalizing d with
  | zero => rfl
  | succ n ih =>
    rw [trimmed]
    split
    · next h =>
      have hten : d.digits % 10 = 0 := by simp_all
      have hdigits : (d.digits : ℚ) = 10 * (d.digits / 10 : ℕ) := by
        exact_mod_cast (Nat.mul_div_cancel' (Nat.dvd_of_mod_eq_zero hten)).symm
      rw [ih, value, value, zpow_add_one₀ (by norm_num), hdigits]
      ring
    · rfl

theorem digits_trimmed_le (d : Scientific) (n : ℕ) : (d.trimmed n).digits ≤ d.digits := by
  induction n generalizing d with
  | zero => exact le_rfl
  | succ n ih =>
    rw [trimmed]
    split
    · exact (ih _).trans (Nat.div_le_self _ _)
    · exact le_rfl

end Scientific

namespace Binary

variable {b : Binary} {d : Scientific} {e : ℤ}

def value (b : Binary) : ℚ := b.m * 2 ^ b.q

/-- The bounds of a positive float; it has the least significand where those below lie closer. -/
structure IsFloat (b : Binary) : Prop where
  pos : 0 < b.m
  lt : b.m < 2 ^ 53
  least : -1074 ≤ b.q
  most : b.q ≤ 971
  narrow : b.narrow → b.m = 2 ^ 52

/-- Among the reals that read back as `b`, or at the end of them. -/
def Near (b : Binary) (x : ℚ) : Prop :=
  b.low * 2 ^ (b.q - 2) ≤ x ∧ x ≤ b.high * 2 ^ (b.q - 2)

theorem value_eq (b : Binary) : b.value = 4 * b.m * 2 ^ (b.q - 2) := by
  rw [value, zpow_sub₀ two_ne_zero]
  ring

theorem place_le_iff (b : Binary) (e : ℤ) :
    (Scale.at b.q e).place ≤ 4 * b.m * (Scale.at b.q e).quarter ↔ (10 : ℚ) ^ e ≤ b.value := by
  obtain ⟨c, hc, hquarter, hplace⟩ := Scale.exists_unit b.q e
  rw [← Nat.cast_le (α := ℚ), Nat.cast_mul, Nat.cast_mul, hquarter, hplace, Nat.cast_ofNat,
    mul_left_comm, mul_le_mul_iff_of_pos_left hc, ← value_eq]

theorem near_of_accepts {digits : ℕ} (h : b.accepts (Scale.at b.q e) digits) :
    b.Near (digits * 10 ^ e) := by
  obtain ⟨c, hc, hquarter, hplace⟩ := Scale.exists_unit b.q e
  have hle : b.low * (Scale.at b.q e).quarter ≤ digits * (Scale.at b.q e).place ∧
      digits * (Scale.at b.q e).place ≤ b.high * (Scale.at b.q e).quarter := by
    rw [accepts] at h
    split at h <;> simp only [Bool.and_eq_true, decide_eq_true_eq] at h <;> omega
  rw [← Nat.cast_le (α := ℚ), ← Nat.cast_le (α := ℚ)] at hle
  simp only [Nat.cast_mul, hquarter, hplace, mul_left_comm _ c] at hle
  exact ⟨le_of_mul_le_mul_left hle.1 hc, le_of_mul_le_mul_left hle.2 hc⟩

theorem accepts_of_lt {digits : ℕ} (hlow : b.low * 2 ^ (b.q - 2) < (digits : ℚ) * 10 ^ e)
    (hhigh : (digits : ℚ) * 10 ^ e < b.high * 2 ^ (b.q - 2)) :
    b.accepts (Scale.at b.q e) digits := by
  obtain ⟨c, hc, hquarter, hplace⟩ := Scale.exists_unit b.q e
  have hlt : b.low * (Scale.at b.q e).quarter < digits * (Scale.at b.q e).place ∧
      digits * (Scale.at b.q e).place < b.high * (Scale.at b.q e).quarter := by
    rw [← Nat.cast_lt (α := ℚ), ← Nat.cast_lt (α := ℚ)]
    simp only [Nat.cast_mul, hquarter, hplace, mul_left_comm _ c]
    exact ⟨mul_lt_mul_of_pos_left hlow hc, mul_lt_mul_of_pos_left hhigh hc⟩
  rw [accepts]
  split <;> simp only [Bool.and_eq_true, decide_eq_true_eq] <;> omega

/-- The grid points on both sides of `b`. -/
theorem grid_around (b : Binary) (e : ℤ) :
    ((4 * b.m * (Scale.at b.q e).quarter / (Scale.at b.q e).place : ℕ) : ℚ) * 10 ^ e ≤ b.value ∧
      b.value < ((4 * b.m * (Scale.at b.q e).quarter / (Scale.at b.q e).place + 1 : ℕ) : ℚ) *
        10 ^ e := by
  obtain ⟨c, hc, hquarter, hplace⟩ := Scale.exists_unit b.q e
  have hpos : 0 < (Scale.at b.q e).place := by
    have : (0 : ℚ) < (Scale.at b.q e).place := by rw [hplace]; positivity
    exact_mod_cast this
  have hx : ((4 * b.m * (Scale.at b.q e).quarter : ℕ) : ℚ) = c * b.value := by
    rw [value_eq, Nat.cast_mul, Nat.cast_mul, hquarter, Nat.cast_ofNat]
    ring
  generalize 4 * b.m * (Scale.at b.q e).quarter = x at hx ⊢
  generalize (Scale.at b.q e).place = place at hplace hpos ⊢
  constructor
  · have h : ((x / place * place : ℕ) : ℚ) ≤ x := mod_cast Nat.div_mul_le_self x place
    rw [Nat.cast_mul, hplace, hx, mul_left_comm] at h
    exact le_of_mul_le_mul_left h hc
  · have h : (x : ℚ) < (place * (x / place + 1) : ℕ) := mod_cast Nat.lt_mul_div_succ x hpos
    rw [Nat.cast_mul, hplace, hx, mul_assoc] at h
    rw [mul_comm]
    exact lt_of_mul_lt_mul_left h hc.le

theorem onGrid?_eq_some (h : b.onGrid? e = some d) :
    d.exponent = e ∧ b.Near d.value ∧ d.value ≤ b.value + 10 ^ e := by
  have hgrid := grid_around b e
  rw [onGrid?] at h
  dsimp only at h
  generalize hbelow : 4 * b.m * (Scale.at b.q e).quarter / (Scale.at b.q e).place = below
    at h hgrid
  have hle : ((below + 1 : ℕ) : ℚ) * 10 ^ e ≤ b.value + 10 ^ e := by
    push_cast
    linarith [hgrid.1]
  have hle' : (below : ℚ) * 10 ^ e ≤ b.value + 10 ^ e :=
    hgrid.1.trans (le_add_of_nonneg_right (by positivity))
  split at h
  · cases h
  · next hdown hup =>
    cases h
    exact ⟨rfl, near_of_accepts hdown, hle'⟩
  · next hdown hup =>
    cases h
    exact ⟨rfl, near_of_accepts hup, hle⟩
  · next hdown hup =>
    cases h
    split
    · exact ⟨rfl, near_of_accepts hdown, hle'⟩
    · exact ⟨rfl, near_of_accepts hup, hle⟩

theorem low_lt (h : b.IsFloat) : b.low < 4 * b.m := by
  have := h.pos
  rw [low]
  split <;> omega

theorem low_lt_value (h : b.IsFloat) : b.low * 2 ^ (b.q - 2) < b.value := by
  have hlow : (b.low : ℚ) < 4 * b.m := mod_cast low_lt h
  rw [value_eq]
  gcongr

theorem value_lt_high (b : Binary) : b.value < b.high * 2 ^ (b.q - 2) := by
  have hhigh : (4 * b.m : ℚ) < b.high := by
    rw [high]
    push_cast
    linarith
  rw [value_eq]
  gcongr

/-- A grid that is finer than the gap between what reads back as `b` has a point there. -/
theorem exists_onGrid? (h : b.IsFloat)
    (hgap : (10 : ℚ) ^ e < (b.high - b.low : ℕ) * 2 ^ (b.q - 2)) :
    ∃ d, b.onGrid? e = some d := by
  obtain ⟨hbelow, habove⟩ := grid_around b e
  rw [onGrid?]
  dsimp only
  generalize 4 * b.m * (Scale.at b.q e).quarter / (Scale.at b.q e).place = below at hbelow habove
  have hor : b.accepts (Scale.at b.q e) below ∨ b.accepts (Scale.at b.q e) (below + 1) := by
    -- If neither neighbour reads back as `b`, then the whole gap lies between the two.
    by_contra hnone
    rw [not_or] at hnone
    have hfar : (below : ℚ) * 10 ^ e ≤ b.low * 2 ^ (b.q - 2) := by
      by_contra hlt
      exact hnone.1 (accepts_of_lt (not_le.1 hlt) (hbelow.trans_lt b.value_lt_high))
    have hfar' : (b.high : ℚ) * 2 ^ (b.q - 2) ≤ (below + 1 : ℕ) * 10 ^ e := by
      by_contra hlt
      exact hnone.2 (accepts_of_lt ((low_lt_value h).trans habove) (not_le.1 hlt))
    have hle : b.low ≤ b.high := by
      have := low_lt h
      rw [high]
      omega
    rw [Nat.cast_sub hle] at hgap
    push_cast at hfar'
    linarith
  obtain hdown | hup := hor
  · rw [hdown]
    cases b.accepts (Scale.at b.q e) (below + 1) <;> exact ⟨_, rfl⟩
  · rw [hup]
    cases b.accepts (Scale.at b.q e) below <;> exact ⟨_, rfl⟩

theorem magnitude_spec (b : Binary) {fuel : ℕ} (hlow : (10 : ℚ) ^ (e - fuel) ≤ b.value)
    (hhigh : b.value < 10 ^ (e + 1)) :
    (10 : ℚ) ^ b.magnitude fuel e ≤ b.value ∧ b.value < 10 ^ (b.magnitude fuel e + 1) := by
  induction fuel generalizing e with
  | zero => exact ⟨by simpa [magnitude] using hlow, hhigh⟩
  | succ fuel ih =>
    rw [magnitude]
    split
    · next h => exact ⟨(place_le_iff b e).1 h, hhigh⟩
    · next h =>
      rw [place_le_iff, not_le] at h
      exact ih (by convert hlow using 2; push_cast; ring) (by rwa [sub_add_cancel])

theorem shortestFrom_eq_some {fuel : ℕ} (h : b.shortestFrom e fuel = some d) :
    ∃ k < fuel, b.onGrid? (e - k) = some d := by
  induction fuel generalizing e with
  | zero => cases h
  | succ fuel ih =>
    rw [shortestFrom] at h
    cases hgrid : b.onGrid? e with
    | some d' =>
      rw [hgrid] at h
      exact ⟨0, by omega, by simpa [hgrid] using h⟩
    | none =>
      rw [hgrid] at h
      obtain ⟨k, hk, hd⟩ := ih h
      exact ⟨k + 1, by omega, by rw [← hd]; congr 1; push_cast; ring⟩

theorem exists_shortestFrom {fuel k : ℕ} (hk : k < fuel) (h : ∃ d, b.onGrid? (e - k) = some d) :
    ∃ d, b.shortestFrom e fuel = some d := by
  induction fuel generalizing e k with
  | zero => omega
  | succ fuel ih =>
    rw [shortestFrom]
    cases hgrid : b.onGrid? e with
    | some d => exact ⟨d, rfl⟩
    | none =>
      cases k with
      | zero => simp [hgrid] at h
      | succ k =>
        refine ih (k := k) (by omega) ?_
        obtain ⟨d, hd⟩ := h
        exact ⟨d, by rw [← hd]; congr 1; push_cast; ring⟩

theorem IsFloat.magnitude_spec (h : b.IsFloat) :
    (10 : ℚ) ^ b.magnitude 640 topMagnitude ≤ b.value ∧
      b.value < 10 ^ (b.magnitude 640 topMagnitude + 1) := by
  have hm : (1 : ℚ) ≤ b.m := mod_cast h.pos
  have hm' : (b.m : ℚ) < 2 ^ 53 := mod_cast h.lt
  have hleast : (10 : ℚ) ^ (-331 : ℤ) ≤ 2 ^ (-1074 : ℤ) := by
    have hpow : 2 ^ 1074 ≤ 10 ^ 331 := by decide +kernel
    rw [zpow_neg, zpow_neg]
    exact inv_anti₀ (by positivity) (by exact_mod_cast hpow)
  have hmost : (2 : ℚ) ^ (1024 : ℤ) ≤ 10 ^ (310 : ℤ) := by
    have hpow : 2 ^ 1024 ≤ 10 ^ 310 := by decide +kernel
    exact_mod_cast hpow
  refine b.magnitude_spec ?_ ?_
  · calc (10 : ℚ) ^ (topMagnitude - (640 : ℕ)) = 10 ^ (-331 : ℤ) := rfl
      _ ≤ 2 ^ (-1074 : ℤ) := hleast
      _ ≤ 2 ^ b.q := zpow_le_zpow_right₀ one_le_two h.least
      _ ≤ b.m * 2 ^ b.q := le_mul_of_one_le_left (by positivity) hm
  · calc b.m * (2 : ℚ) ^ b.q < 2 ^ 53 * 2 ^ b.q := by gcongr
      _ ≤ 2 ^ 53 * 2 ^ (971 : ℤ) := by
        have := zpow_le_zpow_right₀ (one_le_two (α := ℚ)) h.most
        gcongr
      _ = 2 ^ (1024 : ℤ) := by rw [← zpow_natCast, ← zpow_add₀ two_ne_zero]; rfl
      _ ≤ 10 ^ (310 : ℤ) := hmost

/-- The place of the seventeenth digit is finer than the gap. -/
theorem IsFloat.gap (h : b.IsFloat) :
    (10 : ℚ) ^ (b.magnitude 640 topMagnitude - 16) < (b.high - b.low : ℕ) * 2 ^ (b.q - 2) := by
  have hdigits : 4 * (b.m : ℚ) < (b.high - b.low : ℕ) * 10 ^ 16 := by
    have hpos := h.pos
    have hlt := h.lt
    have hnarrow := h.narrow
    have hgap : 4 * b.m < (b.high - b.low) * 10 ^ 16 := by
      rw [high, low]
      split
      · next hn =>
        have := hnarrow hn
        omega
      · omega
    exact_mod_cast hgap
  calc (10 : ℚ) ^ (b.magnitude 640 topMagnitude - 16)
      = 10 ^ b.magnitude 640 topMagnitude / 10 ^ 16 := by
        rw [zpow_sub₀ (by norm_num), zpow_ofNat]
    _ ≤ b.value / 10 ^ 16 := by gcongr; exact h.magnitude_spec.1
    _ = 4 * b.m * 2 ^ (b.q - 2) / 10 ^ 16 := by rw [value_eq]
    _ < (b.high - b.low : ℕ) * 2 ^ (b.q - 2) := by
      rw [div_lt_iff₀ (by positivity), mul_right_comm ((b.high - b.low : ℕ) : ℚ)]
      exact mul_lt_mul_of_pos_right hdigits (by positivity)

/-- The shortest decimal reads back as `b`, with seventeen digits at most or as the power of ten
behind them. -/
theorem IsFloat.shortest_spec (h : b.IsFloat) :
    b.Near b.shortest.value ∧ b.shortest.digits ≤ 10 ^ 17 := by
  obtain ⟨-, hhigh⟩ := h.magnitude_spec
  obtain ⟨d, hd⟩ : ∃ d, b.shortestFrom (b.magnitude 640 topMagnitude) 17 = some d :=
    exists_shortestFrom (k := 16) (by decide) (exists_onGrid? h h.gap)
  rw [shortest, hd, Option.getD_some]
  obtain ⟨k, hk, hgrid⟩ := shortestFrom_eq_some hd
  obtain ⟨hexponent, hnear, hle⟩ := onGrid?_eq_some hgrid
  refine ⟨hnear, ?_⟩
  generalize b.magnitude 640 topMagnitude = e at hhigh hgrid hexponent hle
  have hvalue : (d.digits : ℚ) * 10 ^ (e - k) < (10 ^ (k + 1) + 1 : ℕ) * 10 ^ (e - k) := by
    calc (d.digits : ℚ) * 10 ^ (e - k) = d.value := by rw [Scientific.value, hexponent]
      _ ≤ b.value + 10 ^ (e - k) := hle
      _ < 10 ^ (e + 1) + 10 ^ (e - k) := by gcongr
      _ = (10 ^ (k + 1) + 1 : ℕ) * 10 ^ (e - k) := by
        rw [show e + 1 = (k + 1 : ℕ) + (e - k) by push_cast; ring, zpow_add₀ (by norm_num),
          zpow_natCast]
        push_cast
        ring
  have hlt : d.digits < 10 ^ (k + 1) + 1 :=
    Nat.cast_lt.1 (lt_of_mul_lt_mul_right hvalue (by positivity))
  exact (Nat.le_of_lt_succ hlt).trans (Nat.pow_le_pow_right (by decide) (by omega))

theorem isFloat_ofBits {bits : ℕ} (hpos : 0 < bits) (hfinite : bits < 0x7FF0000000000000) :
    (ofBits bits).IsFloat := by
  rw [ofBits]
  split
  · next h =>
    have h' : bits / 0x10000000000000 % 0x800 = 0 := by simpa using h
    constructor <;> dsimp only <;> first | omega | nofun
  · next h =>
    have h' : bits / 0x10000000000000 % 0x800 ≠ 0 := by simpa using h
    refine ⟨by dsimp only; omega, by dsimp only; omega, ?_, ?_, fun hnarrow ↦ ?_⟩
    · dsimp only [Int.ofNat_eq_natCast]; omega
    · dsimp only [Int.ofNat_eq_natCast]; omega
    · simp only [Bool.and_eq_true, beq_iff_eq] at hnarrow
      dsimp only
      omega

theorem IsFloat.shortest_pos (h : b.IsFloat) : 0 < b.shortest.value := by
  have hlow : 0 < b.low := by
    have := h.pos
    rw [low]
    split <;> omega
  have hlow' : (0 : ℚ) < b.low := mod_cast hlow
  exact h.shortest_spec.1.1.trans_lt' (by positivity)

theorem IsFloat.digits_trimmed_pos (h : b.IsFloat) (n : ℕ) : 0 < (b.shortest.trimmed n).digits := by
  rw [Scientific.digits_pos_iff, Scientific.value_trimmed]
  exact h.shortest_pos

theorem IsFloat.digits_trimmed_le (h : b.IsFloat) (n : ℕ) :
    (b.shortest.trimmed n).digits ≤ 10 ^ 17 :=
  (b.shortest.digits_trimmed_le n).trans h.shortest_spec.2

end Binary

end DesignDocs.Decimal
