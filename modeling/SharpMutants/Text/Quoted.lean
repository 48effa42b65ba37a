import SharpMutants.Text.Unprintable

/-!
# Quoted text

A text in quotes, with backslash escapes: quotes and backslashes, the tab, the
ends of lines and the null character have short ones, and other unprintable
characters are written by number in hexadecimal digits.
-/

namespace SharpMutants

namespace Text

/-- An escape by number. -/
def numberEscape (c : Char) : Text :=
  "\\u\x7b".toList ++ Nat.toDigits 16 c.toNat ++ ['\x7d']

/-- A character inside quotes. -/
def quotedChar (c : Char) : Text :=
  if c = '"' ∨ c = '\\' then ['\\', c]
  else if c = '\t' then ['\\', 't']
  else if c = '\r' then ['\\', 'r']
  else if c = '\n' then ['\\', 'n']
  else if c = '\x00' then ['\\', '0']
  else if isUnprintable c then numberEscape c
  else [c]

/-- A text in quotes. -/
def quoted (text : Text) : Text := '"' :: text.flatMap quotedChar ++ ['"']

end Text

end SharpMutants
