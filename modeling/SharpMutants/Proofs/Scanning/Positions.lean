import Mathlib.Data.List.DropRight
import SharpMutants.Proofs.Rendering.Slices
import SharpMutants.Proofs.Scanning.Bytes

/-!
# Lines and columns

The position of a boundary of a text counts the line feeds before it, and the characters
behind the last of them (`Boundary.positionAt_eq`).  Each character moves the position on, by line,
then by column, so a later boundary has a later position (`positionAt_before_iff`) and a
position stands for one boundary only (`positionAt_inj`).
-/

namespace SharpMutants

namespace Text

namespace Position

/-- One place comes before another: on an earlier line, or on the same line in an earlier column. -/
def Before (p q : Position) : Prop := p.line < q.line ∨ p.line = q.line ∧ p.column < q.column

variable {p q r : Position}

theorem Before.trans (h : p.Before q) (h' : q.Before r) : p.Before r := by
  rw [Before] at *
  omega

/-- No place comes before itself. -/
theorem not_before_self (p : Position) : ¬p.Before p := by
  rw [Before]
  omega

/-- Each character moves a place on. -/
theorem before_advance (p : Position) (c : Char) : p.Before (p.advance c) := by
  rw [advance]
  split
  · exact .inl (Nat.lt_succ_self p.line)
  · exact .inr ⟨rfl, Nat.lt_succ_self p.column⟩

/-- A place comes before the ones behind more text. -/
theorem before_foldl (p : Position) {text : Text} (h : text ≠ []) :
    p.Before (text.foldl advance p) := by
  induction text generalizing p with
  | nil => exact absurd rfl h
  | cons c cs ih =>
      rw [List.foldl_cons]
      by_cases hnil : cs = []
      · rw [hnil]
        exact before_advance p c
      · exact (before_advance p c).trans (ih _ hnil)

/-- The place behind a text: one line more than it has line feeds, one column more than it has
characters behind the last of them. -/
theorem foldl_advance (text : Text) : text.foldl advance first =
    ⟨1 + text.count '\n', 1 + (text.rtakeWhile (· != '\n')).length⟩ := by
  induction text using List.reverseRecOn with
  | nil => rfl
  | append_singleton text c ih =>
      rw [List.foldl_append, ih, List.foldl_cons, List.foldl_nil, advance, List.count_append]
      by_cases hc : c = '\n'
      · subst hc
        rw [if_pos rfl, List.rtakeWhile_concat_neg _ _ _ (by simp)]
        rfl
      · rw [if_neg hc, List.rtakeWhile_concat_pos _ _ _ (by simpa using hc), List.length_append,
          List.count_singleton, if_neg (by simpa using hc)]
        rfl

end Position

variable {s : Text} {a b : Nat}

/-- The place of an offset is counted from the characters before it. -/
theorem positionAt_width (before after : Text) : positionAt (before ++ after) (width before) =
    before.foldl Position.advance .first := by
  rw [positionAt, before?_width, Option.getD_some]

/-- **The position of a boundary** counts line feeds, and characters on the line. -/
theorem Boundary.positionAt_eq (h : Boundary s a) : ∃ before after, s = before ++ after ∧
    width before = a ∧ positionAt s a =
      ⟨1 + before.count '\n', 1 + (before.rtakeWhile (· != '\n')).length⟩ := by
  obtain ⟨before, after, rfl, rfl⟩ := h
  exact ⟨before, after, rfl, rfl, by rw [positionAt_width, Position.foldl_advance]⟩

/-- A later boundary has a later position. -/
theorem Boundary.positionAt_before (ha : Boundary s a) (hb : Boundary s b) (hlt : a < b) :
    (positionAt s a).Before (positionAt s b) := by
  obtain ⟨before, rest, rfl, rfl⟩ := ha
  obtain ⟨mid, after, rfl, rfl⟩ := hb.exists_cut hlt.le
  have hmid : mid ≠ [] := by
    rintro rfl
    exact absurd hlt (Nat.lt_irrefl _)
  rw [positionAt_width, ← List.append_assoc, ← width_append, positionAt_width, List.foldl_append]
  exact Position.before_foldl _ hmid

/-- **Positions of boundaries are in the order of the boundaries**, by line, then by column. -/
theorem Boundary.positionAt_before_iff (ha : Boundary s a) (hb : Boundary s b) :
    (positionAt s a).Before (positionAt s b) ↔ a < b := by
  refine ⟨fun h => ?_, ha.positionAt_before hb⟩
  rcases Nat.lt_trichotomy a b with hlt | rfl | hgt
  · exact hlt
  · exact absurd h (Position.not_before_self _)
  · exact absurd (h.trans (hb.positionAt_before ha hgt)) (Position.not_before_self _)

/-- A position is that of one boundary only. -/
theorem Boundary.positionAt_inj (ha : Boundary s a) (hb : Boundary s b) :
    positionAt s a = positionAt s b ↔ a = b := by
  refine ⟨fun h => ?_, fun h => h ▸ rfl⟩
  rcases Nat.lt_trichotomy a b with hlt | heq | hgt
  · exact absurd (h ▸ ha.positionAt_before hb hlt) (Position.not_before_self _)
  · exact heq
  · exact absurd (h ▸ hb.positionAt_before ha hgt) (Position.not_before_self _)

/-- A boundary is no further than the end of the text. -/
theorem Boundary.le_width (h : Boundary s a) : a ≤ width s := by
  obtain ⟨before, after, rfl, rfl⟩ := h
  rw [width_append]
  exact Nat.le_add_right _ _

end Text

end SharpMutants
