namespace DesignDocs.Decimal

/-- A positive binary number `m * 2 ^ q`. `narrow` says that the neighbour below is half as far
away as the one above. -/
structure Binary where
  m : Nat
  q : Int
  narrow : Bool

structure Scientific where
  digits : Nat
  exponent : Int
  deriving DecidableEq

/-- A scale for exact comparison: a quarter of the last binary place is `quarter` units and the
decimal place `10 ^ e` is `place` units. -/
structure Scale where
  quarter : Nat
  place : Nat

def Scale.at (q e : Int) : Scale :=
  let two := q - 2
  let quarter := Nat.pow 2 two.toNat * Nat.pow 10 (-e).toNat
  let place := Nat.pow 2 (-two).toNat * Nat.pow 10 e.toNat
  ⟨quarter, place⟩

namespace Binary

/-- The reals that read back as `b` lie from `low` to `high` quarters of its last place. -/
def low (b : Binary) : Nat := 4 * b.m - (if b.narrow then 1 else 2)
def high (b : Binary) : Nat := 4 * b.m + 2

def accepts (b : Binary) (s : Scale) (digits : Nat) : Bool :=
  let x := digits * s.place
  let lo := b.low * s.quarter
  let hi := b.high * s.quarter
  if b.m % 2 == 0 then lo ≤ x && x ≤ hi else lo < x && x < hi

/-- The nearer of the grid points around `b` that read back as it; an even number of places wins
a tie. -/
def onGrid? (b : Binary) (e : Int) : Option Scientific :=
  let s := Scale.at b.q e
  let x := 4 * b.m * s.quarter
  let below := x / s.place
  let above := below + 1
  match b.accepts s below, b.accepts s above with
  | false, false => none
  | true, false => some ⟨below, e⟩
  | false, true => some ⟨above, e⟩
  | true, true =>
    let down := x - below * s.place
    let up := above * s.place - x
    some ⟨if down < up || (down == up && below % 2 == 0) then below else above, e⟩

/-- The greatest `e` with `10 ^ e ≤ b`, sought downward from `e`. -/
def magnitude (b : Binary) : Nat → Int → Int
  | 0, e => e
  | fuel + 1, e =>
    let s := Scale.at b.q e
    if s.place ≤ 4 * b.m * s.quarter then e else b.magnitude fuel (e - 1)

def shortestFrom (b : Binary) (e : Int) : Nat → Option Scientific
  | 0 => none
  | fuel + 1 => (b.onGrid? e).orElse fun _ ↦ b.shortestFrom (e - 1) fuel

def topMagnitude : Int := 309

/-- The shortest decimal that reads back as `b`. Tries the grids of one digit, two digits and so on,
and of the first grid with a point among the reals that read back as `b` takes the nearer point.
Seventeen digits always suffice for 64-bit floats. -/
def shortest (b : Binary) : Scientific :=
  (b.shortestFrom (b.magnitude 640 topMagnitude) 17).getD ⟨b.m, b.q⟩

end Binary

/-- The decimal without trailing zeros among its digits. -/
def Scientific.trimmed (d : Scientific) : Nat → Scientific
  | 0 => d
  | fuel + 1 =>
    if d.digits != 0 && d.digits % 10 == 0 then
      (Scientific.mk (d.digits / 10) (d.exponent + 1)).trimmed fuel
    else d

/-- The magnitude of a finite 64-bit float other than zero. -/
def Binary.ofBits (bits : Nat) : Binary :=
  let fraction := bits % 0x10000000000000
  let biased := bits / 0x10000000000000 % 0x800
  if biased == 0 then ⟨fraction, -1074, false⟩
  else ⟨0x10000000000000 + fraction, Int.ofNat biased - 1075, fraction == 0 && biased != 1⟩

/-- How a decimal is laid out. A number whose decimal point stands after the first `whole` digits
is written positionally when `leastWhole < whole ≤ mostWhole`. -/
structure Layout where
  leastWhole : Int
  mostWhole : Int
  exponentMark : String
  positiveSign : String

def zeros (n : Int) : String := String.ofList (List.replicate n.toNat '0')

def Layout.write (layout : Layout) (d : Scientific) : String :=
  let digits := toString d.digits
  let count : Int := digits.length
  let whole := count + d.exponent
  if layout.leastWhole < whole && whole ≤ layout.mostWhole then
    if 0 ≤ d.exponent then digits ++ zeros d.exponent ++ ".0"
    else if 0 < whole then
      String.ofList (digits.toList.take whole.toNat) ++ "." ++
        String.ofList (digits.toList.drop whole.toNat)
    else "0." ++ zeros (-whole) ++ digits
  else
    let fraction := digits.toList.drop 1
    let point := if fraction.isEmpty then "" else "."
    let sign := if whole - 1 < 0 then "-" else layout.positiveSign
    String.ofList (digits.toList.take 1) ++ point ++ String.ofList fraction ++
      layout.exponentMark ++ sign ++ toString (whole - 1).natAbs

def Layout.writeFloat (layout : Layout) (x : Float) : String :=
  let bits := x.toBits.toNat
  let sign := if bits / 0x8000000000000000 == 1 then "-" else ""
  let magnitude := bits % 0x8000000000000000
  if magnitude == 0 then sign ++ "0.0"
  else sign ++ layout.write ((Binary.ofBits magnitude).shortest.trimmed 17)

end DesignDocs.Decimal
