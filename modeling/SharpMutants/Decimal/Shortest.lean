import SharpMutants.Decimal.Binary64

/-!
# The shortest decimal form

A number in double precision stands for all reals that round to it: those up to
half a unit of its last place away, the ends included when the mantissa is even.
Its shortest form is the one with the fewest digits among the decimals that
stand for it; of two with as many digits it is the nearer one.  `shortest` looks
at one digit, at two, and so on, each time at the two neighbours of the number
on the grid of decimals with that many digits.  Seventeen digits always do.

The form is written without exponent and always has a fraction: `2.0`, `12.5`.
-/

namespace SharpMutants

namespace Decimal

/-- Number of decimal digits. -/
def digitCount (n : Nat) : Nat := (Nat.toDigits 10 n).length

/-- The power of ten at the first digit of a positive ratio. -/
def leadingPower (num den : Nat) : Int :=
  if den ≤ num then digitCount (num / den) - 1 else -(digitCount ((den - 1) / num) : Int)

/-- The whole number `10 ^ power`; one for a negative power. -/
def powerOfTen (power : Int) : Nat := Nat.pow 10 power.toNat

/-- A ratio divided by a power of ten, as numerator and denominator. -/
def scaledBy (num den : Nat) (power : Int) : Nat × Nat :=
  (num * powerOfTen (-power), den * powerOfTen power)

/-- The decimal `digits * 10 ^ power`. -/
structure Number where
  digits : Nat
  power : Int
deriving DecidableEq

/-- A number and the reals that round to it, over one denominator: they go from `below` under
the value to `above` over it, the ends included when the range is closed. -/
structure Neighbourhood where
  value : Nat
  below : Nat
  above : Nat
  den : Nat
  closed : Bool

/-- The reals that round to a number: half a unit to both sides, but half of that below a
power of two, where the mantissas of the smaller numbers are finer. -/
def neighbourhood (x : Binary64) : Neighbourhood :=
  let unit := Binary64.power x.exponent
  { value := 4 * x.mantissa * unit
    below := if x.mantissa = Binary64.power 52 then unit else 2 * unit
    above := 2 * unit
    den := 4 * Binary64.power (-x.exponent)
    closed := x.mantissa % 2 = 0 }

/-- Whether a decimal lies in a neighbourhood. -/
def Neighbourhood.contains (r : Neighbourhood) (d : Number) : Bool :=
  let place := d.digits * powerOfTen d.power * r.den
  let scale := powerOfTen (-d.power)
  let low := (r.value - r.below) * scale
  let high := (r.value + r.above) * scale
  (low < place && place < high) || (r.closed && (place == low || place == high))

/-- The decimal with `count` digits that stands for a number, if there is one. -/
def withDigits? (x : Binary64) (count : Nat) : Option Number :=
  let (num, den) := x.toRatio
  let power := leadingPower num den - ((count : Int) - 1)
  let (n, d) := scaledBy num den power
  let low : Number := ⟨n / d, power⟩
  let high : Number := ⟨n / d + 1, power⟩
  let rest := n % d
  let r := neighbourhood x
  match r.contains low, r.contains high with
  | true, true =>
    if 2 * rest < d || (2 * rest == d && (n / d) % 2 == 0) then some low else some high
  | true, false => some low
  | false, true => some high
  | false, false => none

/-- The shortest decimal that stands for a number. -/
def shortest (x : Binary64) : Number :=
  if x.mantissa = 0 then ⟨0, 0⟩
  else ((List.range' 1 17).findSome? (withDigits? x)).getD ⟨0, 0⟩

/-- A decimal in digits, with at least one before the point and one after it. -/
def Number.render (d : Number) : String :=
  let text := Nat.toDigits 10 (d.digits * powerOfTen d.power)
  let places := (-d.power).toNat
  let padded := List.replicate (places + 1 - text.length) '0' ++ text
  let whole := padded.take (padded.length - places)
  let fraction := padded.drop (padded.length - places)
  String.ofList (whole ++ ['.'] ++ if fraction.isEmpty then ['0'] else fraction)

end Decimal

/-- The text of a number: its shortest decimal form. -/
def Binary64.render (x : Binary64) : String := (Decimal.shortest x).render

end SharpMutants
