import SharpMutants.Syntax.Render

/-!
# Texts by place

A boundary of a text is an offset at which a character begins or the text ends.
Slices between boundaries stand one after another (`slice_append`), and together
they are the text (`slice_all`).  `fill` swaps pieces between two places for other
texts; what a node prints over a source is such a text (`weave_eq_fill`,
`weave_eq_fill_own`): the gaps of the source with the texts of the children in
their places, and that of the node's own token in its place.
-/

namespace SharpMutants

namespace Text

variable {s as bs cs : Text} {a b c : Nat}

/-- A character begins or the text ends at a byte offset. -/
def Boundary (s : Text) (a : Nat) : Prop := ∃ before after, s = before ++ after ∧ width before = a

/-- A text begins at a boundary. -/
theorem boundary_zero (s : Text) : Boundary s 0 := ⟨[], s, rfl, rfl⟩

/-- A text without width is empty. -/
theorem eq_nil_of_width_eq_zero (h : width as = 0) : as = [] := by
  cases as with
  | nil => rfl
  | cons c cs =>
      have := Char.utf8Size_pos c
      rw [width] at h
      omega

/-- A boundary behind the first part of a text cuts the second part. -/
theorem Boundary.exists_cut (h : Boundary (as ++ bs) b) (hle : width as ≤ b) :
    ∃ mid after, bs = mid ++ after ∧ width as + width mid = b := by
  obtain ⟨before, after, htext, hwidth⟩ := h
  rcases List.append_eq_append_iff.mp htext with ⟨mid, rfl, rfl⟩ | ⟨mid, rfl, rfl⟩
  · exact ⟨mid, after, rfl, by rw [← width_append, hwidth]⟩
  · rw [width_append] at hle
    obtain rfl : mid = [] := eq_nil_of_width_eq_zero (by omega)
    exact ⟨[], bs, rfl, by rw [List.append_nil, width, Nat.add_zero, hwidth]⟩

/-- A slice is the text in the middle. -/
theorem slice_eq (as mid cs : Text) (ha : width as = a) (hb : width as + width mid = b) :
    slice (as ++ (mid ++ cs)) a b = mid := by
  rw [slice, ← ha, dropBytes_width, ← hb, Nat.add_sub_cancel_left, takeBytes_width]

/-- A slice of no width is empty. -/
theorem slice_self (s : Text) (a : Nat) : slice s a a = [] := by rw [slice, Nat.sub_self, takeBytes]

/-- The first part of a text. -/
theorem slice_left (as bs : Text) : slice (as ++ bs) 0 (width as) = as :=
  slice_eq [] as bs rfl (Nat.zero_add _)

/-- The second part of a text. -/
theorem slice_right (as bs : Text) : slice (as ++ bs) (width as) (width (as ++ bs)) = bs := by
  have hslice := slice_eq as bs [] rfl (width_append as bs).symm
  rwa [List.append_nil] at hslice

/-- Two offsets bound a slice. -/
structure Range (s : Text) (a b : Nat) : Prop where
  start : Boundary s a
  le : a ≤ b
  stop : Boundary s b

/-- A boundary bounds an empty slice. -/
theorem Boundary.range (h : Boundary s a) : Range s a a := ⟨h, Nat.le_refl a, h⟩

theorem Range.trans (h : Range s a b) (h' : Range s b c) : Range s a c :=
  ⟨h.start, Nat.le_trans h.le h'.le, h'.stop⟩

/-- A slice stands between its offsets. -/
theorem Range.exists_slice (h : Range s a b) :
    ∃ before after, s = before ++ (slice s a b ++ after) ∧ width before = a ∧
      width before + width (slice s a b) = b := by
  obtain ⟨⟨before, rest, rfl, hbefore⟩, hle, hb⟩ := h
  obtain ⟨mid, after, rfl, hmid⟩ := hb.exists_cut (hbefore ▸ hle)
  rw [slice_eq before mid after hbefore hmid]
  exact ⟨before, after, rfl, hbefore, hmid⟩

/-- **The texts of slices that meet** make that of the slice. -/
theorem slice_append (h : Range s a b) (h' : Range s b c) :
    slice s a b ++ slice s b c = slice s a c := by
  obtain ⟨⟨before, rest, rfl, rfl⟩, hab, hb⟩ := h
  obtain ⟨mid, rest, rfl, rfl⟩ := hb.exists_cut hab
  have hle := h'.le
  have hc := h'.stop
  rw [← width_append] at hle ⊢
  rw [← List.append_assoc] at hc
  obtain ⟨last, rest, rfl, rfl⟩ := hc.exists_cut hle
  rw [slice_eq before mid _ rfl (width_append before mid).symm, ← List.append_assoc before,
    slice_eq (before ++ mid) last rest rfl rfl, List.append_assoc, ← List.append_assoc mid,
    slice_eq before (mid ++ last) rest rfl (by rw [width_append, width_append, Nat.add_assoc])]

/-- The slice of a whole text is the text. -/
theorem slice_all (s : Text) : slice s 0 (width s) = s := by
  have hslice := slice_left s []
  rwa [List.append_nil] at hslice

/-- The text between two places, with pieces of it swapped for other texts. -/
def fill (s : Text) (start stop : Nat) : List (Span × Text) → Text
  | [] => slice s start stop
  | (span, text) :: pieces => slice s start span.start ++ text ++ fill s span.stop stop pieces

end Text

/-- Ranges of a text stand one after another between two places. -/
def Text.InOrder (s : Text) (start stop : Nat) : List Span → Prop
  | [] => s.Range start stop
  | span :: spans =>
    s.Range start span.start ∧ s.Range span.start span.stop ∧ InOrder s span.stop stop spans

namespace Text.InOrder

variable {s : Text} {a b c : Nat} {spans spans' : List Span}

/-- Ranges in order stand in a range. -/
theorem range (h : s.InOrder a b spans) : s.Range a b := by
  induction spans generalizing a with
  | nil => exact h
  | cons span spans ih => exact (h.1.trans h.2.1).trans (ih h.2.2)

/-- Ranges in order stand in a wider range. -/
theorem widen (h : s.InOrder b c spans) (hab : s.Range a b) : s.InOrder a c spans := by
  cases spans with
  | nil => exact hab.trans h
  | cons span spans => exact ⟨hab.trans h.1, h.2⟩

/-- Ranges are in order around one of them. -/
theorem middle_iff {span : Span} : s.InOrder a b (spans ++ span :: spans') ↔
    s.InOrder a span.start spans ∧ s.Range span.start span.stop ∧ s.InOrder span.stop b spans' := by
  induction spans generalizing a with
  | nil => exact Iff.rfl
  | cons first spans ih => simp only [List.cons_append, InOrder, ih, and_assoc]

/-- A range among others in order is in the range around them. -/
theorem of_mem (h : s.InOrder a b spans) {span : Span} (hspan : span ∈ spans) :
    s.Range a span.start ∧ s.Range span.start span.stop ∧ s.Range span.stop b := by
  induction spans generalizing a with
  | nil => cases hspan
  | cons first spans ih =>
      obtain ⟨hbefore, hhere, hrest⟩ := h
      rcases List.mem_cons.mp hspan with rfl | hspan
      · exact ⟨hbefore, hhere, hrest.range⟩
      · obtain ⟨hfirst, hafter⟩ := ih hrest hspan
        exact ⟨(hbefore.trans hhere).trans hfirst, hafter⟩

/-- Filling in what is there changes nothing. -/
theorem fill_slices (h : s.InOrder a b spans) :
    fill s a b (spans.map fun span => (span, slice s span.start span.stop)) = slice s a b := by
  induction spans generalizing a with
  | nil => rfl
  | cons span spans ih =>
      obtain ⟨hbefore, hhere, hrest⟩ := h
      rw [List.map_cons, fill, ih hrest, slice_append hbefore hhere,
        slice_append (hbefore.trans hhere) hrest.range]

end Text.InOrder

/-! ## Printing between gaps -/

variable {source : Source} {d : Node} {token : Span} {text : String} {start stop : Nat}

namespace Render

/-- The own token of a node lies elsewhere, or the node has none that is printed. -/
def Elsewhere (d : Node) (start stop : Nat) : Prop :=
  ∀ token text, d.token = some token → d.kind.tokenText? = some text →
    ¬(start ≤ token.start ∧ token.stop ≤ stop)

/-- A gap without the own token of the node is printed as it is read. -/
theorem gap_eq_slice (h : Elsewhere d start stop) :
    gap source d start stop = Text.slice source.text start stop := by
  rw [gap]
  split
  · rename_i htoken htext
    rw [if_neg (h _ _ htoken htext), Source.slice_eq]
  · rw [Source.slice_eq]

/-- A gap with the own token of the node is printed with that token in its place. -/
theorem gap_eq_own (htoken : d.token = some token) (htext : d.kind.tokenText? = some text)
    (hstart : start ≤ token.start) (hstop : token.stop ≤ stop) :
    gap source d start stop = Text.slice source.text start token.start ++ text.toList ++
      Text.slice source.text token.stop stop := by
  rw [gap, htoken, htext]
  dsimp only
  rw [if_pos ⟨hstart, hstop⟩, Source.slice_eq, Source.slice_eq]

end Render

namespace Tree

/-- A node in the text of the node around it: its place and its text. -/
def piece (source : Source) (t : Tree) : Span × Text := (t.span, t.render source)

/-- Children print in their places between the gaps of the source, if the token of the node
around them lies elsewhere. -/
theorem weave_eq_fill {cs : List Tree} {cursor : Nat}
    (helsewhere : ∀ start stop, cursor ≤ start → Render.Elsewhere d start stop)
    (h : source.text.InOrder cursor d.span.stop (cs.map span)) :
    weave source d cursor cs =
      Text.fill source.text cursor d.span.stop (cs.map (piece source)) := by
  induction cs generalizing cursor with
  | nil =>
      rw [weave_nil, Render.gapForward, if_pos h.range.le,
        Render.gap_eq_slice (helsewhere _ _ (Nat.le_refl _))]
      rfl
  | cons c cs ih =>
      obtain ⟨hbefore, hhere, hrest⟩ := h
      have hle := Nat.le_trans hbefore.le hhere.le
      rw [weave_cons, Render.gapForward, if_pos hbefore.le,
        Render.gap_eq_slice (helsewhere _ _ (Nat.le_refl _)), Nat.max_eq_right hle,
        ih (fun start stop h => helsewhere start stop (Nat.le_trans hle h)) hrest]
      rfl

/-- The token of a node prints in its place among the children. -/
theorem weave_eq_fill_own (source : Source) (ls rs : List Tree) {cursor : Nat} (htoken : d.token = some token)
    (htext : d.kind.tokenText? = some text) (hnonempty : token.start < token.stop)
    (h : source.text.InOrder cursor d.span.stop (ls.map span ++ token :: rs.map span)) :
    weave source d cursor (ls ++ rs) = Text.fill source.text cursor d.span.stop
      (ls.map (piece source) ++ (token, text.toList) :: rs.map (piece source)) := by
  have hunique : ∀ {start stop}, token.stop ≤ start ∨ stop ≤ token.start →
      Render.Elsewhere d start stop := by
    intro start stop houtside token' text' htoken' _ hinside
    rw [htoken, Option.some.injEq] at htoken'
    subst htoken'
    omega
  induction ls generalizing cursor with
  | nil =>
      obtain ⟨hbefore, hhere, hafter⟩ := h
      cases rs with
      | nil =>
          rw [List.append_nil, weave_nil, Render.gapForward,
            if_pos (hbefore.trans (hhere.trans hafter)).le,
            Render.gap_eq_own htoken htext hbefore.le hafter.range.le]
          rfl
      | cons c cs =>
          obtain ⟨hgap, hchild, hrest⟩ := hafter
          have hle := (hhere.trans hgap).le
          have hforward := (hbefore.trans (hhere.trans hgap)).le
          rw [List.nil_append, weave_cons, Render.gapForward, if_pos hforward,
            Render.gap_eq_own htoken htext hbefore.le hgap.le,
            Nat.max_eq_right (Nat.le_trans hforward hchild.le), weave_eq_fill ?_ hrest]
          · simp only [List.map_nil, List.nil_append, List.map_cons, Text.fill, piece,
              List.append_assoc]
          · intro start stop hstart
            exact hunique (.inl (Nat.le_trans (hgap.trans hchild).le hstart))
  | cons c ls ih =>
      obtain ⟨hgap, hchild, hrest⟩ := h
      have hlater : c.span.stop ≤ token.start := (hrest.of_mem (by simp)).1.le
      rw [List.cons_append, weave_cons, Render.gapForward, if_pos hgap.le,
        Render.gap_eq_slice (hunique (.inr (Nat.le_trans hchild.le hlater))),
        Nat.max_eq_right (hgap.trans hchild).le, ih hrest]
      rfl

end Tree

end SharpMutants
