import SharpMutants.Json

/-!
# Reading JSON

The reader takes exactly the JSON grammar: blanks are space, tab, line feed and
carriage return; numbers have no leading zeros; control characters stand in a
string only in escaped form; nothing but blanks follows the value.  Escaped
surrogates are joined in pairs, and half a pair makes a string without text.

Every step of `value`, `elements` or `fields` takes a character or leads to a
step that does, so a bound of `depthPerCharacter` levels for each character is
never met.
-/

namespace SharpMutants

namespace Json

namespace Read

/-- Passes over blanks. -/
def skipBlanks (cs : Text) : Text :=
  cs.dropWhile fun c => c == ' ' || c == '\t' || c == '\n' || c == '\r'

/-- The value of a hexadecimal digit. -/
def hexValue? (c : Char) : Option Nat :=
  if '0' ≤ c ∧ c ≤ '9' then some (c.toNat - 48)
  else if 'a' ≤ c ∧ c ≤ 'f' then some (c.toNat - 87)
  else if 'A' ≤ c ∧ c ≤ 'F' then some (c.toNat - 55)
  else none

/-- The number that four hexadecimal digits spell. -/
def hexValue4? (a b c d : Char) : Option Nat := do
  return (((← hexValue? a) * 16 + (← hexValue? b)) * 16 + (← hexValue? c)) * 16 + (← hexValue? d)

/-- The character of a one-letter escape. -/
def shortEscape? (c : Char) : Option Char :=
  if c = '"' ∨ c = '\\' ∨ c = '/' then some c
  else if c = 'n' then some '\n'
  else if c = 'r' then some '\r'
  else if c = 't' then some '\t'
  else if c = 'b' then some '\x08'
  else if c = 'f' then some '\x0c'
  else none

/-- The code points and escaped code units up to the closing quote, and the rest. -/
def units : Text → Option (List Nat × Text)
  | [] => none
  | '"' :: rest => some ([], rest)
  | '\\' :: 'u' :: a :: b :: c :: d :: rest => do
    let unit ← hexValue4? a b c d
    let (more, rest) ← units rest
    return (unit :: more, rest)
  | '\\' :: e :: rest => do
    let c ← shortEscape? e
    let (more, rest) ← units rest
    return (c.toNat :: more, rest)
  | c :: rest => do
    if c.toNat < 32 then none
    else
      let (more, rest) ← units rest
      return (c.toNat :: more, rest)

/-- Joins surrogate pairs; half a pair has no text. -/
def joinUnits : List Nat → Option Text
  | [] => some []
  | hi :: rest =>
    if 0xD800 ≤ hi ∧ hi < 0xDC00 then
      match rest with
      | lo :: rest =>
        if 0xDC00 ≤ lo ∧ lo < 0xE000 then
          (joinUnits rest).map
            (Char.ofNat (0x10000 + (hi - 0xD800) * 0x400 + (lo - 0xDC00)) :: ·)
        else none
      | [] => none
    else if 0xDC00 ≤ hi ∧ hi < 0xE000 then none
    else (joinUnits rest).map (Char.ofNat hi :: ·)

/-- A string after its opening quote. -/
def string (cs : Text) : Option (Option String × Text) := do
  let (us, rest) ← units cs
  return ((joinUnits us).map String.ofList, rest)

/-- Decimal digits at the beginning of a text, and the rest. -/
def digits (cs : Text) : Text × Text := (cs.takeWhile Char.isDigit, cs.dropWhile Char.isDigit)

/-- An integer part: a zero, or digits that do not begin with one. -/
def whole (cs : Text) : Option (Text × Text) :=
  match digits cs with
  | ([], _) => none
  | ('0' :: _ :: _, _) => none
  | part => some part

/-- A fraction, if a point comes next. -/
def fraction (cs : Text) : Option (Text × Text) :=
  match cs with
  | '.' :: rest =>
    match digits rest with
    | ([], _) => none
    | (ds, rest) => some ('.' :: ds, rest)
  | _ => some ([], cs)

/-- An exponent, if its letter comes next. -/
def exponent (cs : Text) : Option (Text × Text) :=
  match cs with
  | e :: rest =>
    if e = 'e' ∨ e = 'E' then
      let (sign, rest) :=
        match rest with
        | '+' :: rest => (['+'], rest)
        | '-' :: rest => (['-'], rest)
        | _ => ([], rest)
      match digits rest with
      | ([], _) => none
      | (ds, rest) => some (e :: sign ++ ds, rest)
    else some ([], cs)
  | [] => some ([], [])

/-- A number in its spelling. -/
def number (cs : Text) : Option (String × Text) := do
  let (sign, cs) :=
    match cs with
    | '-' :: rest => (['-'], rest)
    | _ => ([], cs)
  let (ds, cs) ← whole cs
  let (fraction, cs) ← fraction cs
  let (exponent, cs) ← exponent cs
  return (String.ofList (sign ++ ds ++ fraction ++ exponent), cs)

/-- A text that has to begin with a word, after that word. -/
def afterWord? (word : String) (cs : Text) : Option Text :=
  if word.toList.isPrefixOf cs then some (cs.drop word.length) else none

mutual

/-- A value, after blanks, and the rest. -/
def value : Nat → Text → Option (Json × Text)
  | 0, _ => none
  | n + 1, cs =>
    match skipBlanks cs with
    | '"' :: rest => do
      let (s, rest) ← string rest
      return (.string s, rest)
    | '[' :: rest =>
      match skipBlanks rest with
      | ']' :: rest => some (.array [], rest)
      | _ => do
        let (vs, rest) ← elements n rest
        return (.array vs, rest)
    | '\x7b' :: rest =>
      match skipBlanks rest with
      | '\x7d' :: rest => some (.object [], rest)
      | _ => do
        let (fs, rest) ← fields n rest
        return (.object fs, rest)
    | 't' :: rest => (afterWord? "rue" rest).map fun rest => (.bool true, rest)
    | 'f' :: rest => (afterWord? "alse" rest).map fun rest => (.bool false, rest)
    | 'n' :: rest => (afterWord? "ull" rest).map fun rest => (.null, rest)
    | other => (number other).map fun (s, rest) => (.number s, rest)

/-- One or more elements up to the closing bracket. -/
def elements : Nat → Text → Option (List Json × Text)
  | 0, _ => none
  | n + 1, cs => do
    let (v, rest) ← value n cs
    match skipBlanks rest with
    | ']' :: rest => some ([v], rest)
    | ',' :: rest =>
      let (vs, rest) ← elements n rest
      return (v :: vs, rest)
    | _ => none

/-- One or more fields up to the closing brace. -/
def fields : Nat → Text → Option (List (Option String × Json) × Text)
  | 0, _ => none
  | n + 1, cs =>
    match skipBlanks cs with
    | '"' :: rest => do
      let (key, rest) ← string rest
      match skipBlanks rest with
      | ':' :: rest =>
        let (v, rest) ← value n rest
        match skipBlanks rest with
        | '\x7d' :: rest => some ([(key, v)], rest)
        | ',' :: rest =>
          let (fs, rest) ← fields n rest
          return ((key, v) :: fs, rest)
        | _ => none
      | _ => none
    | _ => none

end

/-- More levels than the reader descends from one character to the next. -/
def depthPerCharacter : Nat := 3

end Read

/-- The value that a text writes. -/
def parse? (cs : Text) : Option Json :=
  match Read.value (Read.depthPerCharacter * (cs.length + 1)) cs with
  | some (v, rest) => if (Read.skipBlanks rest).isEmpty then some v else none
  | none => none

end Json

end SharpMutants
