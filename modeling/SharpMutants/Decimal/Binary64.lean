/-!
# Ratios in double precision

A number in double precision is a mantissa of at most 53 bits times a power of
two.  `ofRatio` rounds a ratio of natural numbers to the nearest such number; of
two that are equally near it takes the one with the even mantissa.  Exponents
are not bounded: the ratios of counts stay far inside the range of the format.
-/

namespace SharpMutants

/-- The number `mantissa * 2 ^ exponent`. -/
structure Binary64 where
  mantissa : Nat
  exponent : Int
deriving DecidableEq

namespace Binary64

/-- The number nought. -/
def zero : Binary64 := ⟨0, 0⟩

/-- The nearest natural number to a ratio; the even one of two. -/
def roundRatio (num den : Nat) : Nat :=
  let quotient := num / den
  let rest := num % den
  if 2 * rest < den then quotient
  else if den < 2 * rest then quotient + 1
  else quotient + quotient % 2

/-- The whole number `2 ^ exponent`; one for a negative exponent. -/
def power (exponent : Int) : Nat := Nat.pow 2 exponent.toNat

/-- A ratio divided by a power of two, as numerator and denominator. -/
def scaled (num den : Nat) (exponent : Int) : Nat × Nat :=
  (num * power (-exponent), den * power exponent)

/-- The exponent for which the mantissa of a positive ratio has 53 bits. -/
def exponentOf (num den : Nat) : Int :=
  let guess : Int := (num.log2 : Int) - den.log2 - 52
  let (n, d) := scaled num den guess
  if n / d < power 52 then guess - 1 else guess

/-- The number next to a ratio. -/
def ofRatio (num den : Nat) : Binary64 :=
  if num = 0 then zero
  else
    let exponent := exponentOf num den
    let (n, d) := scaled num den exponent
    let mantissa := roundRatio n d
    if mantissa = power 53 then ⟨power 52, exponent + 1⟩ else ⟨mantissa, exponent⟩

/-- The value as numerator and denominator. -/
def toRatio (x : Binary64) : Nat × Nat := (x.mantissa * power x.exponent, power (-x.exponent))

/-- The number next to a multiple. -/
def times (x : Binary64) (n : Nat) : Binary64 :=
  let (num, den) := x.toRatio
  ofRatio (num * n) den

end Binary64

end SharpMutants
