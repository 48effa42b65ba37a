/-!
# Source text by byte offset

Source text is a list of characters, addressed by byte offsets into its UTF-8
form.  `slice` cuts out the characters between two offsets, and `positionAt`
turns an offset into the line and column that a reader counts, both from one,
columns in characters.

The key local facts are `takeBytes_width` and `dropBytes_width`: cutting at the
width of a prefix gives back exactly that prefix and what follows it.
-/

namespace SharpMutants

/-- Text, character by character. -/
abbrev Text := List Char

namespace Text

/-- Number of bytes of the UTF-8 form. -/
def width : Text → Nat
  | [] => 0
  | c :: cs => c.utf8Size + width cs

/-- What is left after the characters that begin in the first `n` bytes. -/
def dropBytes : Nat → Text → Text
  | 0, cs => cs
  | _ + 1, [] => []
  | n + 1, c :: cs => dropBytes (n + 1 - c.utf8Size) cs

/-- The characters that begin in the first `n` bytes. -/
def takeBytes : Nat → Text → Text
  | 0, _ => []
  | _ + 1, [] => []
  | n + 1, c :: cs => c :: takeBytes (n + 1 - c.utf8Size) cs

/-- The text between two byte offsets. -/
def slice (source : Text) (start stop : Nat) : Text :=
  takeBytes (stop - start) (dropBytes start source)

/-- The text before a byte offset, if a character begins or the text ends there. -/
def before? : Text → Nat → Option Text
  | _, 0 => some []
  | [], _ + 1 => none
  | c :: cs, n + 1 =>
    if c.utf8Size ≤ n + 1 then (before? cs (n + 1 - c.utf8Size)).map (c :: ·) else none

theorem width_append (as bs : Text) : width (as ++ bs) = width as + width bs := by
  induction as with
  | nil => simp [width]
  | cons c cs ih => simp [width, ih, Nat.add_assoc]

/-- Behind the bytes of a text is what follows it. -/
theorem dropBytes_width (as bs : Text) : dropBytes (width as) (as ++ bs) = bs := by
  induction as with
  | nil => simp [width, dropBytes]
  | cons c cs ih =>
      obtain ⟨n, hn⟩ : ∃ n, c.utf8Size + width cs = n + 1 :=
        ⟨c.utf8Size + width cs - 1, by have := Char.utf8Size_pos c; omega⟩
      simp only [width, List.cons_append, hn, dropBytes]
      rw [← hn, Nat.add_sub_cancel_left, ih]

/-- The bytes of a text in front of others are the text. -/
theorem takeBytes_width (as bs : Text) : takeBytes (width as) (as ++ bs) = as := by
  induction as with
  | nil => simp [width, takeBytes]
  | cons c cs ih =>
      obtain ⟨n, hn⟩ : ∃ n, c.utf8Size + width cs = n + 1 :=
        ⟨c.utf8Size + width cs - 1, by have := Char.utf8Size_pos c; omega⟩
      simp only [width, List.cons_append, hn, takeBytes]
      rw [← hn, Nat.add_sub_cancel_left, ih]

/-- A place in a text as a reader counts it: line and column, both from one. -/
structure Position where
  line : Nat
  column : Nat
deriving DecidableEq

namespace Position

/-- The first place of a text. -/
def first : Position := ⟨1, 1⟩

/-- The place after one more character: a line feed opens a line. -/
def advance (p : Position) (c : Char) : Position :=
  if c = '\n' then ⟨p.line + 1, 1⟩ else ⟨p.line, p.column + 1⟩

end Position

/-- The place of a byte offset.  An offset past the end, or inside a character,
stands for the end of the text. -/
def positionAt (source : Text) (offset : Nat) : Position :=
  ((before? source offset).getD source).foldl Position.advance Position.first

end Text

end SharpMutants
