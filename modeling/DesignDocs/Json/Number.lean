import DesignDocs.Decimal.Shortest

namespace DesignDocs.Json

open Float.Model (UnpackedFloat)

def FitsWord (i : Int) : Prop := -0x8000000000000000 ≤ i ∧ i < 0x10000000000000000

instance (i : Int) : Decidable (FitsWord i) := inferInstanceAs (Decidable (_ ∧ _))

inductive Number
  | integer (value : Int) (fits : FitsWord value)
  | float (value : Float) (finite : value.isFinite)

namespace Number

def ofUInt64 (n : UInt64) : Number :=
  .integer n.toNat ⟨by have := n.toNat_lt; omega, by have := n.toNat_lt; omega⟩

def ofInt64 (n : Int64) : Number :=
  .integer n.toInt ⟨n.le_toInt, by have := n.toInt_lt; omega⟩

def toUInt64? : Number → Option UInt64
  | integer i _ => if 0 ≤ i then some (UInt64.ofNat i.toNat) else none
  | float .. => none

def toInt64? : Number → Option Int64
  | integer i _ => if i < 0x8000000000000000 then some (Int64.ofInt i) else none
  | float .. => none

/-- Equality of numbers of one kind; floats compare as floats, so that the two zeros are equal. -/
protected def beq : Number → Number → Bool
  | integer i _, integer j _ => i == j
  | float x _, float y _ => x == y
  | _, _ => false

instance : BEq Number := ⟨Number.beq⟩

/-- What finite floats are compared by: nothing for the two zeros, else sign, significand and
binary exponent. -/
def standing : UnpackedFloat → Option (UnpackedFloat.Sign × Nat × Int)
  | .finite sign significand exponent _ => some (sign, significand, exponent)
  | _ => none

theorem standing_finite (sign : UnpackedFloat.Sign) (significand : Nat) (exponent : Int)
    (h : 0 < significand) :
    standing (.finite sign significand exponent h) = some (sign, significand, exponent) := rfl

theorem beq_iff_standing {u v : UnpackedFloat} (hu : u.isFinite) (hv : v.isFinite) :
    u.beq v ↔ standing u = standing v := by
  cases u with
  | notANumber | infinity => exact absurd hu Bool.false_ne_true
  | zero s =>
    cases v with
    | notANumber | infinity => exact absurd hv Bool.false_ne_true
    | zero t => exact iff_of_true rfl rfl
    | finite t => cases t <;> exact iff_of_false Bool.false_ne_true nofun
  | finite s m e hm =>
    cases v with
    | notANumber | infinity => exact absurd hv Bool.false_ne_true
    | zero t => cases s <;> exact iff_of_false Bool.false_ne_true nofun
    | finite t n f hn =>
      rw [standing_finite, standing_finite]
      cases s <;> cases t
      · change (some ((compare e f).then (compare m n)).swap == some .eq) = true ↔ _
        simp [Ordering.then_eq_eq, Ordering.swap_eq_eq, and_comm]
      · exact iff_of_false Bool.false_ne_true nofun
      · exact iff_of_false Bool.false_ne_true nofun
      · change (some ((compare e f).then (compare m n)) == some .eq) = true ↔ _
        simp [Ordering.then_eq_eq, and_comm]

theorem float_beq_float {x y : Float} (hx : x.isFinite) (hy : y.isFinite) :
    float x hx == float y hy ↔ standing x.toModel.unpack = standing y.toModel.unpack :=
  beq_iff_standing hx hy

theorem integer_beq_integer {i j : Int} (hi : FitsWord i) (hj : FitsWord j) :
    integer i hi == integer j hj ↔ i = j := by
  change (i == j) = true ↔ i = j
  exact beq_iff_eq

theorem integer_beq_float {i : Int} {x : Float} (hi : FitsWord i) (hx : x.isFinite) :
    (integer i hi == float x hx) = false :=
  rfl

theorem float_beq_integer {i : Int} {x : Float} (hi : FitsWord i) (hx : x.isFinite) :
    (float x hx == integer i hi) = false :=
  rfl

theorem beq_refl (n : Number) : n == n := by
  cases n with
  | integer => simp [integer_beq_integer]
  | float => simp [float_beq_float]

theorem beq_comm (m n : Number) : (m == n) = (n == m) := by
  rw [Bool.eq_iff_iff]
  cases m <;> cases n <;>
    simp only [integer_beq_integer, float_beq_float, integer_beq_float, float_beq_integer]
  · exact eq_comm
  · exact eq_comm

theorem beq_trans {l m n : Number} (h : l == m) (h' : m == n) : l == n := by
  cases l <;> cases m <;> cases n <;>
    simp_all only [integer_beq_integer, float_beq_float, integer_beq_float, float_beq_integer,
      Bool.false_eq_true]

def ofFloat? (x : Float) : Option Number :=
  if h : x.isFinite then some (.float x h) else none

/-- Floats have their shortest digits: positional with a decimal point from `1e-5` to below
`1e16`, otherwise with a signed exponent. -/
def layout : Decimal.Layout := ⟨-5, 16, "e", "+"⟩

def text : Number → String
  | integer i _ => toString i
  | float x _ => layout.writeFloat x

end Number

end DesignDocs.Json
