import SharpMutants.Json

/-!
# Printing JSON

Strings are written with the short escapes where JSON has one, other control
characters by number, and all else as it is.  `pretty` puts every element and
field on a line of its own, two spaces deeper than its container; an empty
container stays on one line.  `compact` writes no blanks.
-/

namespace SharpMutants

namespace Json

/-- The hexadecimal digit of a number below sixteen. -/
def hexDigit (n : Nat) : Char := if n < 10 then Char.ofNat (48 + n) else Char.ofNat (87 + n)

/-- A character inside a string. -/
def escape (c : Char) : Text :=
  if c = '"' then ['\\', '"']
  else if c = '\\' then ['\\', '\\']
  else if c = '\n' then ['\\', 'n']
  else if c = '\r' then ['\\', 'r']
  else if c = '\t' then ['\\', 't']
  else if c = '\x08' then ['\\', 'b']
  else if c = '\x0c' then ['\\', 'f']
  else if c.toNat < 32 then ['\\', 'u', '0', '0', hexDigit (c.toNat / 16), hexDigit (c.toNat % 16)]
  else [c]

/-- A string in quotes. -/
def quote (s : String) : String := String.ofList ('"' :: s.toList.flatMap escape ++ ['"'])

/-- A line break and the indentation of a depth. -/
def newline (depth : Nat) : String := "\n" ++ String.ofList (List.replicate (2 * depth) ' ')

mutual

/-- The compact form. -/
def compact : Json → String
  | null => "null"
  | bool true => "true"
  | bool false => "false"
  | number spelling => spelling
  | string text => quote (text.getD "")
  | array elements => "[" ++ String.intercalate "," (compactElements elements) ++ "]"
  | object fields => "\x7b" ++ String.intercalate "," (compactFields fields) ++ "\x7d"

/-- The compact forms of the elements. -/
def compactElements : List Json → List String
  | [] => []
  | v :: vs => v.compact :: compactElements vs

/-- The compact forms of the fields. -/
def compactFields : List (Option String × Json) → List String
  | [] => []
  | (k, v) :: rest => (quote (k.getD "") ++ ":" ++ v.compact) :: compactFields rest

end

mutual

/-- The form with one element or field on a line, inside a container of a depth. -/
def prettyAt (depth : Nat) : Json → String
  | array [] => "[]"
  | array (v :: vs) =>
    "[" ++ newline (depth + 1) ++ v.prettyAt (depth + 1) ++ prettyElements (depth + 1) vs ++
      newline depth ++ "]"
  | object [] => "\x7b\x7d"
  | object ((k, v) :: rest) =>
    "\x7b" ++ newline (depth + 1) ++ quote (k.getD "") ++ ": " ++ v.prettyAt (depth + 1) ++
      prettyFields (depth + 1) rest ++ newline depth ++ "\x7d"
  | null => "null"
  | bool true => "true"
  | bool false => "false"
  | number spelling => spelling
  | string text => quote (text.getD "")

/-- The further elements, each after a comma. -/
def prettyElements (depth : Nat) : List Json → String
  | [] => ""
  | v :: vs => "," ++ newline depth ++ v.prettyAt depth ++ prettyElements depth vs

/-- The further fields, each after a comma. -/
def prettyFields (depth : Nat) : List (Option String × Json) → String
  | [] => ""
  | (k, v) :: rest =>
    "," ++ newline depth ++ quote (k.getD "") ++ ": " ++ v.prettyAt depth ++
      prettyFields depth rest

end

/-- The form with one element or field on a line. -/
def pretty (v : Json) : String := v.prettyAt 0

end Json

end SharpMutants
