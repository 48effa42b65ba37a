import SharpMutants.Text

/-!
# JSON values

A JSON value as it is written: numbers keep their spelling, and objects keep
their fields in order, repeated ones included.  A string may name half of a
surrogate pair, which is no character; such a string has no text, and `none`
stands for it.
-/

namespace SharpMutants

/-- A JSON value. -/
inductive Json where
  | null
  | bool (value : Bool)
  | number (spelling : String)
  | string (text : Option String)
  | array (elements : List Json)
  | object (fields : List (Option String × Json))

namespace Json

/-- A string value. -/
def text (s : String) : Json := string (some s)

/-- A number value. -/
def nat (n : Nat) : Json := number (toString n)

/-- A text value, or null. -/
def text? : Option String → Json
  | some s => text s
  | none => null

/-- A number value, or null. -/
def nat? : Option Nat → Json
  | some n => nat n
  | none => null

/-- An object with distinct fields. -/
def record (fields : List (String × Json)) : Json := object (fields.map fun (k, v) => (some k, v))

/-- The value of a field of an object; of a repeated field, the last one. -/
def field? (name : String) : Json → Option Json
  | object fields => (fields.reverse.find? fun (k, _) => k == some name).map Prod.snd
  | _ => none

/-- The natural number that a value spells without fraction or exponent. -/
def asNat? : Json → Option Nat
  | number spelling => if spelling.toList.all Char.isDigit then spelling.toNat? else none
  | _ => none

end Json

end SharpMutants
