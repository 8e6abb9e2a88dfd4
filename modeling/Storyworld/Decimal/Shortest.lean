namespace Storyworld

/-!
# The shortest decimal of a floating-point number

A finite number is written with the fewest digits that read back to it; of two such
decimals the nearer one is taken, and the upper one when both are equally near. The
number is decoded from its bits into an integer times a power of two, and everything
after that is exact arithmetic on integers.
-/

/-- The decimal `digits · 10 ^ exponent`. -/
structure Decimal where
  digits : Nat
  exponent : Int
  deriving DecidableEq, Repr, Inhabited

namespace Decimal

/-- A positive number between its neighbours: the number is `value / scale`, and every real
between `lower / scale` and `upper / scale` rounds to it. The ends do too if `closed`. -/
structure Interval where
  lower : Nat
  value : Nat
  upper : Nat
  scale : Nat
  closed : Bool
  deriving Repr

namespace Interval

/-- The interval of `mantissa · 2 ^ exponent`. When the number below is only half as far away
as the one above, the lower end is closer. -/
def ofBinary (mantissa : Nat) (exponent : Int) (halfBelow : Bool) : Interval :=
  let up := Nat.pow 2 (exponent - 2).toNat
  { lower := (4 * mantissa - (if halfBelow then 1 else 2)) * up
    value := 4 * mantissa * up
    upper := (4 * mantissa + 2) * up
    scale := Nat.pow 2 (2 - exponent).toNat
    closed := mantissa % 2 == 0 }

/-- The interval stretched so that a unit is `10 ^ exponent`. -/
def inUnits (i : Interval) (exponent : Int) : Interval :=
  let up := Nat.pow 10 (-exponent).toNat
  { i with
    lower := i.lower * up
    value := i.value * up
    upper := i.upper * up
    scale := i.scale * Nat.pow 10 exponent.toNat }

/-- Whether that many units read back to the number. -/
def holds (i : Interval) (units : Nat) : Bool :=
  if i.closed then i.lower ≤ units * i.scale && units * i.scale ≤ i.upper
  else i.lower < units * i.scale && units * i.scale < i.upper

/-- The whole number of units nearest to the number among those that read back to it, a tie
going up. -/
def nearest? (i : Interval) : Option Nat :=
  let below := i.value / i.scale
  match i.holds below, i.holds (below + 1) with
  | false, false => none
  | true, false => some below
  | false, true => some (below + 1)
  | true, true =>
    if 2 * i.value < (2 * below + 1) * i.scale then some below else some (below + 1)

/-- The least power of ten above the number, as an exponent. -/
def magnitude (i : Interval) : Int :=
  if i.scale ≤ i.value then ((Nat.toDigits 10 (i.value / i.scale)).length : Int)
  else
    match (List.range 400).find? fun k => i.scale ≤ i.value * Nat.pow 10 (k + 1) with
    | some k => -(k : Int)
    | none => 0

end Interval

/-- Drops the zeros at the end of the digits, at most that many. -/
def dropZeros : Nat → Decimal → Decimal
  | 0, d => d
  | n + 1, d =>
    if d.digits % 10 = 0 ∧ d.digits ≠ 0 then dropZeros n ⟨d.digits / 10, d.exponent + 1⟩ else d

/-- The most digits a number of this precision needs. -/
def mostDigits : Nat := 17

/-- The decimal with the fewest digits that reads back to the number of the interval. -/
def shortest (i : Interval) : Decimal :=
  let top := i.magnitude
  let found := (List.range mostDigits).findSome? fun n =>
    let exponent := top - ((n + 1 : Nat) : Int)
    (i.inUnits exponent).nearest?.map fun units => (⟨units, exponent⟩ : Decimal)
  match found with
  | some d => dropZeros mostDigits d
  | none => ⟨0, 0⟩

/-- The digits with the point at its place, never with an exponent, and without a point when
the number is whole. -/
def text (d : Decimal) : String :=
  let ds := Nat.toDigits 10 d.digits
  if 0 ≤ d.exponent then String.ofList (ds ++ List.replicate d.exponent.toNat '0')
  else
    let places := (-d.exponent).toNat
    let ds := List.replicate (places + 1 - ds.length) '0' ++ ds
    String.ofList (ds.take (ds.length - places) ++ '.' :: ds.drop (ds.length - places))

/-- The number as text: the shortest decimal after its sign, or the name of what is not
finite. A negative zero keeps its sign. -/
def ofFloat (x : Float) : String :=
  let bits : Nat := x.toBits.toNat
  let sign := if bits / Nat.pow 2 63 = 1 then "-" else ""
  let field : Nat := bits / Nat.pow 2 52 % Nat.pow 2 11
  let fraction : Nat := bits % Nat.pow 2 52
  if field = Nat.pow 2 11 - 1 then
    if fraction = 0 then sign ++ "inf" else "NaN"
  else if field = 0 ∧ fraction = 0 then sign ++ "0"
  else
    let i := if field = 0 then Interval.ofBinary fraction (-1074) false
      else Interval.ofBinary (Nat.pow 2 52 + fraction) ((field : Int) - 1075)
        (fraction == 0 && field != 1)
    sign ++ (shortest i).text

end Decimal

end Storyworld
