import SharpMutants.Text

/-!
# Reading decimal integers

A decimal integer is an optional sign and one or more digits.  `natural?` takes
no minus sign; both refuse a text with anything else in it.
-/

namespace SharpMutants

namespace Decimal

/-- The number that digits spell after others that spell `high`. -/
def fromDigits? (high : Nat) : Text → Option Nat
  | [] => some high
  | c :: cs => if '0' ≤ c ∧ c ≤ '9' then fromDigits? (10 * high + (c.toNat - 48)) cs else none

/-- The number that one or more digits spell. -/
def digits? : Text → Option Nat
  | [] => none
  | cs => fromDigits? 0 cs

/-- The natural number that a text spells. -/
def natural? : Text → Option Nat
  | '+' :: cs => digits? cs
  | cs => digits? cs

/-- The integer that a text spells. -/
def integer? : Text → Option Int
  | '+' :: cs => (digits? cs).map Int.ofNat
  | '-' :: cs => (digits? cs).map fun n => -Int.ofNat n
  | cs => (digits? cs).map Int.ofNat

end Decimal

end SharpMutants
