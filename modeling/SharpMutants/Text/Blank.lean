import SharpMutants.Text

/-!
# Blank characters

The characters with the Unicode property `White_Space`, and the words of a text
between them.  The key local fact is `isBlank_of_isWhitespace`: the blanks of
ASCII are among them.
-/

namespace SharpMutants

namespace Text

/-- The ranges of blank characters, first and last included. -/
def blankRanges : List (Nat × Nat) := [
  (0x09, 0x0D), (0x20, 0x20), (0x85, 0x85), (0xA0, 0xA0), (0x1680, 0x1680), (0x2000, 0x200A),
  (0x2028, 0x2029), (0x202F, 0x202F), (0x205F, 0x205F), (0x3000, 0x3000)]

/-- Whether a character is blank. -/
def isBlank (c : Char) : Bool :=
  blankRanges.any fun (first, last) => first ≤ c.toNat && c.toNat ≤ last

/-- What is white space is a blank. -/
theorem isBlank_of_isWhitespace {c : Char} (h : c.isWhitespace) : isBlank c := by
  simp only [Char.isWhitespace, Bool.or_eq_true, decide_eq_true_eq] at h
  rcases h with ((h | h) | h) | h <;> subst h <;> decide

/-- The words of a text, after the part of a word that is already read. -/
def wordsAfter (read : Text) : Text → List Text
  | [] => if read.isEmpty then [] else [read]
  | c :: cs =>
    if isBlank c then (if read.isEmpty then [] else [read]) ++ wordsAfter [] cs
    else wordsAfter (read ++ [c]) cs

/-- The longest parts of a text without blanks, in order. -/
def words (text : Text) : List Text := wordsAfter [] text

end Text

end SharpMutants
