namespace Storyworld

/-!
# Reading decimal numbers

A number is an optional sign and then a name for infinity or not-a-number, in any
case, or digits with at most one point among them and perhaps an exponent after
them. At least one digit has to stand before the exponent.
-/

namespace Decimal

def natOfDigits (cs : List Char) : Nat :=
  cs.foldl (fun n c => 10 * n + (c.toNat - '0'.toNat)) 0

/-- The exponent that follows the digits: nothing, or the letter `e`, an optional sign and at
least one digit. -/
def readExponent? : List Char → Option Int
  | [] => some 0
  | e :: cs =>
    if e ≠ 'e' ∧ e ≠ 'E' then none
    else
      let (negative, ds) := match cs with
        | '-' :: ds => (true, ds)
        | '+' :: ds => (false, ds)
        | ds => (false, ds)
      if ds.isEmpty || !ds.all Char.isDigit then none
      else some (if negative then -(natOfDigits ds : Int) else natOfDigits ds)

/-- An exponent beyond which every number is infinite, and below whose negative every number
is zero. -/
def farthest : Int := 400

/-- The number nearest to `digits · 10 ^ exponent`. -/
def scaled (digits : Nat) (exponent : Int) : Float :=
  let size : Int := (Nat.toDigits 10 digits).length + exponent
  if digits = 0 ∨ size < -farthest then 0
  else if farthest < size then 1.0 / 0.0
  else Float.ofScientific digits (decide (exponent < 0)) exponent.natAbs

/-- The number without its sign. -/
def readUnsigned? (cs : List Char) : Option Float :=
  let name := String.ofList (cs.map Char.toLower)
  if name = "inf" ∨ name = "infinity" then some (1.0 / 0.0)
  else if name = "nan" then some (0.0 / 0.0)
  else
    let whole := cs.takeWhile Char.isDigit
    let (places, rest) := match cs.dropWhile Char.isDigit with
      | '.' :: rest => (rest.takeWhile Char.isDigit, rest.dropWhile Char.isDigit)
      | rest => ([], rest)
    if whole.isEmpty && places.isEmpty then none
    else (readExponent? rest).map fun e =>
      scaled (natOfDigits (whole ++ places)) (e - places.length)

def read? (s : String) : Option Float :=
  match s.toList with
  | '-' :: cs => (readUnsigned? cs).map Float.neg
  | '+' :: cs => readUnsigned? cs
  | cs => readUnsigned? cs

end Decimal

end Storyworld
