import SharpMutants.Proofs.Layout.Runs
import SharpMutants.Proofs.Rendering.Slices
import SharpMutants.Proofs.Scanning.Adjacent

/-!
# Comments behind tokens

The comment that marks a rewritten node is invisible.  Whatever stands behind a token, a
blank there ends the token as well (`Scan.Scans.follow_blank`), the comment is passed over
(`Scan.Scans.comment`), and what was behind the token is scanned as before, only further on
(`Scan.Scans.shift`).  So a text with such a comment has the tokens that it has without it,
and it is read as a tree of the same shape (`tokenize_commented`).
-/

namespace SharpMutants

open Scan Text

/-- A token further on in the source. -/
def Token.shift (k : Nat) (t : Token) : Token :=
  { t with span := ⟨t.span.start + k, t.span.stop + k⟩ }

/-- A text with a comment put in at a byte offset. -/
def Text.commented (s : Text) (offset : Nat) (marker : String) : Text :=
  slice s 0 offset ++ Render.comment (some marker) ++ slice s offset (width s)

/-- A token where a comment of some width at a byte offset leaves it. -/
def Token.pastComment (offset k : Nat) (t : Token) : Token :=
  if t.span.start < offset then t else t.shift k

namespace Settings

/-- A text ends a comment if the closing mark is in it. -/
theorem endsComment_eq_true {text : Text} : endsComment text = true ↔ ['*', '/'] <:+: text := by
  fun_induction endsComment text with
  | case1 cs => simpa using ⟨[], cs, rfl⟩
  | case2 c cs notClosed ih =>
      rw [ih, List.infix_cons_iff]
      constructor
      · exact .inr
      · intro h
        refine h.resolve_left fun hopens => ?_
        obtain ⟨rest, hrest⟩ := hopens
        obtain ⟨rfl, rfl⟩ := List.cons.inj hrest
        exact notClosed rest rfl rfl
  | case3 => simp

end Settings

namespace Scan.Scans

variable {o : Nat} {text : Text} {ts us vs : List Token} {t : Token}

/-- A text further on has its tokens further on. -/
theorem shift (h : Scans o text ts) (k : Nat) : Scans (o + k) text (ts.map (Token.shift k)) := by
  induction h with
  | nil o => exact .nil (o + k)
  | trivia is _ ih => exact .trivia is (by rwa [Nat.add_right_comm])
  | @token o c as bs kind ts is _ ih =>
      have hhere := Scans.token (o := o + k) is (by rwa [Nat.add_right_comm])
      rw [Nat.add_right_comm] at hhere
      exact hhere

/-- What is passed over before a text puts its tokens further on. -/
theorem pass {skipped : Text} {ls : List SharpMutants.Lexeme} {last : Option TokenKind}
    (hpass : Stretch text skipped ls last) (hnone : ls = [])
    (h : Scans (o + width skipped) text ts) : Scans o (skipped ++ text) ts := by
  induction hpass generalizing o with
  | nil => exact h
  | @trivia c as bs ls last is rest ih =>
      rw [List.cons_append, List.append_assoc]
      refine .trivia is (ih hnone ?_)
      rwa [← List.cons_append, width_append, ← Nat.add_assoc] at h
  | token => cases hnone
  | final => cases hnone

/-- A comment before a text is passed over. -/
theorem comment {marker : String} (hmarker : ¬['*', '/'] <:+: marker.toList)
    (h : Scans (o + width (Render.comment (some marker))) text ts) :
    Scans o (Render.comment (some marker) ++ text) ts := by
  refine pass (Stretch.comment ?_ text) rfl h
  intro text htext
  obtain rfl := Option.some.inj htext
  rwa [Bool.eq_false_iff, ne_eq, Settings.endsComment_eq_true]

/-- **A blank may follow a token.**  The tokens up to it stay where they are, whatever stands
behind the blank. -/
theorem follow_blank (h : Scans o text (us ++ t :: vs)) (hreal : t.kind ≠ .endOfInput) :
    ∃ through rest, text = through ++ rest ∧ through ≠ [] ∧
      o + width through = t.span.stop ∧ Scans t.span.stop rest vs ∧
      ∀ more ws, Scans t.span.stop (' ' :: more) ws →
        Scans o (through ++ ' ' :: more) (us ++ t :: ws) := by
  generalize hall : us ++ t :: vs = all at h
  induction h generalizing us with
  | nil o =>
      rcases us with _ | ⟨u, us⟩
      · obtain ⟨rfl, -⟩ := List.cons.inj hall
        exact absurd rfl hreal
      · simp at hall
  | @trivia o c as bs all is rest ih =>
      obtain ⟨through, rest', rfl, hthrough, hwidth, hrest, hblank⟩ := ih hall
      refine ⟨c :: (as ++ through), rest', by simp, List.cons_ne_nil _ _, ?_, hrest, ?_⟩
      · rw [← List.cons_append, width_append, ← Nat.add_assoc, hwidth]
      · intro more ws hmore
        have hafter := hblank more ws hmore
        rw [List.cons_append, List.append_assoc]
        refine .trivia ?_ hafter
        -- A line comment ends where it did, as something follows it up to the token.
        obtain ⟨b, through, rfl⟩ := List.exists_cons_of_ne_nil hthrough
        obtain ⟨hpiece, hline⟩ := trivia_append.mp is
        exact trivia_append.mpr ⟨hpiece, hline⟩
  | @token o c as bs k all is rest ih =>
      rcases us with _ | ⟨u, us⟩
      · obtain ⟨rfl, rfl⟩ := List.cons.inj hall
        refine ⟨c :: as, bs, rfl, List.cons_ne_nil _ _, rfl, rest, ?_⟩
        intro more ws hmore
        refine .token ?_ hmore
        exact lexeme_append.mpr ⟨(lexeme_append.mp is).1, TokenKind.goesOn_inert (by decide)⟩
      · obtain ⟨rfl, htail⟩ := List.cons.inj hall
        obtain ⟨through, rest', rfl, hthrough, hwidth, hrest, hblank⟩ := ih htail
        refine ⟨c :: (as ++ through), rest', by simp, List.cons_ne_nil _ _, ?_, hrest, ?_⟩
        · rw [← List.cons_append, width_append, ← Nat.add_assoc, hwidth]
        · intro more ws hmore
          have hafter := hblank more ws hmore
          rw [List.cons_append, List.append_assoc]
          refine .token ?_ hafter
          obtain ⟨b, through, rfl⟩ := List.exists_cons_of_ne_nil hthrough
          obtain ⟨hpiece, hstop⟩ := lexeme_append.mp is
          refine lexeme_append.mpr ⟨hpiece, TokenKind.goesOn_append hstop fun hdigit => ?_⟩
          cases hdigit

/-- No token before another reaches beyond its end, and none behind it begins before. -/
theorem starts (h : Scans o text (us ++ t :: vs)) (hreal : t.kind ≠ .endOfInput) :
    (∀ u ∈ us ++ [t], u.span.start < t.span.stop) ∧ ∀ v ∈ vs, t.span.stop ≤ v.span.start := by
  obtain ⟨_, rest, _, _, _, hrest, -⟩ := h.follow_blank hreal
  obtain ⟨_, _, _, _, _, _, _, hscans⟩ := h.exists_before
  obtain ⟨_, rfl, hwidth, htoken, -⟩ := hscans.exists_text hreal
  have hlength : t.span.start < t.span.stop := by
    have hspelled : t.text ≠ [] := by
      intro hnil
      rw [hnil] at htoken
      cases htoken.nil_inv.1
    obtain ⟨c, cs, hcs⟩ := List.exists_cons_of_ne_nil hspelled
    have := Char.utf8Size_pos c
    rw [hcs, width] at hwidth
    omega
  refine ⟨fun u hu => ?_, fun v hv => (hrest.bounds v hv).1⟩
  rcases List.mem_append.mp hu with hu | hu
  · have hbefore := (List.pairwise_append.mp h.ascending).2.2 u hu t List.mem_cons_self
    exact Nat.lt_of_le_of_lt hbefore.1 hlength
  · rwa [List.mem_singleton.mp hu]

/-- **A comment behind a token** leaves the tokens up to it where they are and moves all others
by its width. -/
theorem commented (h : Scans 0 text ts) (ht : t ∈ ts) (hreal : t.kind ≠ .endOfInput)
    {marker : String} (hmarker : ¬['*', '/'] <:+: marker.toList) :
    Scans 0 (text.commented t.span.stop marker)
      (ts.map (Token.pastComment t.span.stop (width (Render.comment (some marker))))) := by
  obtain ⟨us, vs, rfl⟩ := List.append_of_mem ht
  obtain ⟨hbefore, hbehind⟩ := h.starts hreal
  obtain ⟨through, rest, rfl, -, hwidth, hrest, hblank⟩ := h.follow_blank hreal
  have hcomment := (hrest.shift (width (Render.comment (some marker)))).comment hmarker
  have hplaced := hblank _ _ hcomment
  have htext : Text.commented (through ++ rest) t.span.stop marker =
      through ++ (Render.comment (some marker) ++ rest) := by
    rw [Nat.zero_add] at hwidth
    rw [Text.commented, ← hwidth, slice_left, slice_right, List.append_assoc]
  have hstay : ∀ u ∈ us ++ [t], u.pastComment t.span.stop (width (Render.comment (some marker))) =
      u := fun u hu => if_pos (hbefore u hu)
  have hmove : ∀ v ∈ vs, v.pastComment t.span.stop (width (Render.comment (some marker))) =
      v.shift (width (Render.comment (some marker))) :=
    fun v hv => if_neg (Nat.not_lt.mpr (hbehind v hv))
  have htokens : (us ++ t :: vs).map (Token.pastComment t.span.stop
      (width (Render.comment (some marker)))) =
        us ++ t :: vs.map (Token.shift (width (Render.comment (some marker)))) := by
    rw [List.append_cons, List.map_append, List.map_congr_left hstay, List.map_congr_left hmove,
      List.map_id', List.append_assoc, List.singleton_append]
  rw [htext, htokens]
  exact hplaced

end Scan.Scans

/-- **The comment of a marker is invisible.**  Put behind any token but the end of the input, it
leaves the tokens up to there where they are and moves the others by its width, kinds and spellings
being the same.  Both texts are read as trees of one shape, or neither is read. -/
theorem tokenize_commented {source : Text} {tokens : List Token}
    (h : tokenize source = .ok tokens) {t : Token} (ht : t ∈ tokens)
    (hreal : t.kind ≠ .endOfInput) {marker : String} (hmarker : ¬['*', '/'] <:+: marker.toList) :
    tokenize (source.commented t.span.stop marker) = .ok (tokens.map
      (Token.pastComment t.span.stop (width (Render.comment (some marker))))) ∧
    ((∃ d, parse source = .ok d) ↔ ∃ e, parse (source.commented t.span.stop marker) = .ok e) ∧
    ∀ d e, parse source = .ok d → parse (source.commented t.span.stop marker) = .ok e →
      d.tree.sameShape e.tree := by
  have hcommented := tokenize_eq_ok.mpr ((tokenize_eq_ok.mp h).commented ht hreal hmarker)
  have hwords : tokens.map Token.lexeme = (tokens.map (Token.pastComment t.span.stop
      (width (Render.comment (some marker))))).map Token.lexeme := by
    rw [List.map_map]
    refine List.map_congr_left fun u _ => ?_
    rw [Function.comp_apply, Token.pastComment]
    split <;> rfl
  refine ⟨hcommented, ⟨fun hread => ?_, fun hread => ?_⟩, fun d e hd he => ?_⟩
  · obtain ⟨d, hd⟩ := hread
    obtain ⟨e, he, -⟩ := exists_parse_of_words h hcommented hwords hd
    exact ⟨e, he⟩
  · obtain ⟨e, he⟩ := hread
    obtain ⟨d, hd, -⟩ := exists_parse_of_words hcommented h hwords.symm he
    exact ⟨d, hd⟩
  · obtain ⟨e', he', hshape⟩ := exists_parse_of_words h hcommented hwords hd
    obtain rfl := Except.ok.inj (he.symm.trans he')
    exact beq_iff_eq.mpr hshape

/-- A comment between a minus and the comment right behind it, with a text that is almost a mark
itself. -/
theorem tokenize_commented_minus : ∃ tokens d,
    tokenize "class A \x7b int F(int a) \x7b return a-/* old */-a; \x7d \x7d".toList = .ok tokens ∧
      ⟨.mark .minus, ['-'], ⟨33, 34⟩⟩ ∈ tokens ∧ ¬['*', '/'] <:+: "/**".toList ∧
      tokenize "class A \x7b int F(int a) \x7b return a- /* /** *//* old */-a; \x7d \x7d".toList =
        .ok (tokens.map (Token.pastComment 34 10)) ∧
      parse "class A \x7b int F(int a) \x7b return a-/* old */-a; \x7d \x7d".toList = .ok d ∧
      ∃ e, parse "class A \x7b int F(int a) \x7b return a- /* /** *//* old */-a; \x7d \x7d".toList =
        .ok e ∧ d.tree.sameShape e.tree := by
  have hread : (tokenize
      "class A \x7b int F(int a) \x7b return a-/* old */-a; \x7d \x7d".toList).toOption.any
        (fun tokens => tokens.contains ⟨.mark .minus, ['-'], ⟨33, 34⟩⟩) = true := by
    decide +kernel
  have hparse : (parse
      "class A \x7b int F(int a) \x7b return a-/* old */-a; \x7d \x7d".toList).toOption.any
        (fun _ => true) = true := by
    decide +kernel
  obtain ⟨d, hd, -⟩ := exists_document_of_any hparse
  obtain ⟨tokens, htokens, hcontains⟩ := exists_ok_of_any hread
  have hmem : ⟨.mark .minus, ['-'], ⟨33, 34⟩⟩ ∈ tokens := List.contains_iff_mem.mp hcontains
  obtain ⟨hcommented, hboth, hshape⟩ :=
    tokenize_commented htokens hmem nofun (show ¬['*', '/'] <:+: "/**".toList by decide)
  have htext : Text.commented
      "class A \x7b int F(int a) \x7b return a-/* old */-a; \x7d \x7d".toList 34 "/**" =
      "class A \x7b int F(int a) \x7b return a- /* /** *//* old */-a; \x7d \x7d".toList := by
    decide +kernel
  have hwidth : width (Render.comment (some "/**")) = 10 := by decide +kernel
  simp only [htext, hwidth] at hcommented hboth hshape
  obtain ⟨e, he⟩ := hboth.mp ⟨d, hd⟩
  exact ⟨tokens, d, htokens, hmem, by decide, hcommented, hd, e, he, hshape d e hd he⟩

end SharpMutants
