import SharpMutants.Proofs.Mutation.Proposals
import SharpMutants.Proofs.Neighbours
import SharpMutants.Proofs.Rendering.Lossless

/-!
# The text of a mutant

Swapping a subtree that lies over a text for a tree of the same extent swaps its part
of the text, and nothing else (`Laid.render_replaceAt`).  What the mutators put in the
place of a node has the extent of the node.  Over the source it prints as `Swapped`
says: as a semicolon, as the part of the source with another token, or as that part
with another operator and parentheses around operands or the whole, and then the
comment.  So `render_mutant` gives the text of every mutant of a document.
-/

namespace SharpMutants

open Text

variable {s : Text} {source : Source} {a b : Nat}

/-- Filling in one other text changes the text in its place only. -/
theorem Text.InOrder.fill_one {span : Span} {before after : List (Span × Text)} {text : Text}
    (h : s.InOrder a b (before.map Prod.fst ++ span :: after.map Prod.fst))
    (hbefore : ∀ p ∈ before, p.2 = slice s p.1.start p.1.stop)
    (hafter : ∀ p ∈ after, p.2 = slice s p.1.start p.1.stop) :
    fill s a b (before ++ (span, text) :: after) =
      slice s a span.start ++ text ++ slice s span.stop b := by
  have hplain : ∀ {ps : List (Span × Text)}, (∀ p ∈ ps, p.2 = slice s p.1.start p.1.stop) →
      ps = (ps.map Prod.fst).map fun span => (span, slice s span.start span.stop) := by
    intro ps hps
    rw [List.map_map]
    exact (List.map_id ps).symm.trans (List.map_congr_left fun p hp => Prod.ext rfl (hps p hp))
  induction before generalizing a with
  | nil =>
      rw [List.nil_append, fill, hplain hafter, h.2.2.fill_slices]
  | cons p before ih =>
      obtain ⟨hp, hbefore⟩ := List.forall_mem_cons.mp hbefore
      obtain ⟨hgap, hhere, hrest⟩ := h
      rw [List.cons_append, fill, ih hrest hbefore, hp, ← List.append_assoc, ← List.append_assoc,
        slice_append hgap hhere, slice_append (hgap.trans hhere) (hrest.of_mem (by simp)).1]

namespace Laid

variable {d : Node} {ls rs : List Tree} {c new : Tree}

/-- The children of a tree that lies over a text do so. -/
theorem of_child {t : Tree} (h : Laid s t) (hc : c ∈ t.children) : Laid s c := by
  cases h with
  | node _ _ _ _ children => exact children c hc

/-- The children of a laid tree print as their parts of the text. -/
theorem pieces {cs : List Tree} (h : ∀ c ∈ cs, Laid source.text c) :
    ∀ p ∈ cs.map (Tree.piece source), p.2 = slice source.text p.1.start p.1.stop := by
  intro p hp
  obtain ⟨c, hc, rfl⟩ := List.mem_map.mp hp
  exact (h c hc).render_eq

/-- Swapping a child for a tree of the same extent swaps its part of the text. -/
theorem weave_child (h : Laid source.text (.node d (ls ++ c :: rs))) (hspan : new.span = c.span) :
    Tree.weave source d d.span.start (ls ++ new :: rs) =
      slice source.text d.span.start c.span.start ++ new.render source ++
        slice source.text c.span.stop d.span.stop := by
  cases h with
  | node read bare order own children =>
  rw [List.forall_mem_append, List.forall_mem_cons] at children
  obtain ⟨hls, -, hrs⟩ := children
  have hspans : ∀ bs : List Tree, (bs.map (Tree.piece source)).map Prod.fst = bs.map Tree.span :=
    fun bs => List.map_map
  have hpiece : Tree.piece source new = (c.span, new.render source) := by rw [Tree.piece, hspan]
  cases htext : d.kind.tokenText? with
  | none =>
      rw [List.map_append, List.map_cons] at order
      rw [Tree.weave_eq_fill (fun _ _ _ _ _ _ h => by simp [htext] at h)
        (by simpa [hspan] using order), List.map_append, List.map_cons, hpiece]
      exact Text.InOrder.fill_one (by rwa [hspans, hspans]) (pieces hls) (pieces hrs)
  | some text =>
      obtain ⟨token, htoken, hnonempty, hspelled, hplace⟩ := own text htext
      have hown : ∀ {bs bs' : List Tree}, (∀ b ∈ bs, Laid source.text b) →
          (∀ b ∈ bs', Laid source.text b) →
          ∀ p ∈ bs.map (Tree.piece source) ++ (token, text.toList) :: bs'.map (Tree.piece source),
            p.2 = slice source.text p.1.start p.1.stop := fun hbs hbs' =>
        List.forall_mem_append.mpr
          ⟨pieces hbs, List.forall_mem_cons.mpr ⟨hspelled.symm, pieces hbs'⟩⟩
      -- The token stands before the child or after it.
      by_cases hle : d.kind.leading ≤ ls.length
      · rw [List.take_append_of_le_length hle, List.drop_append_of_le_length hle] at hplace
        rw [← List.take_append_drop d.kind.leading ls, List.append_assoc,
          Tree.weave_eq_fill_own source _ _ htoken htext hnonempty (by simpa [hspan] using hplace),
          List.map_append, List.map_cons, hpiece, ← List.cons_append, ← List.append_assoc]
        refine Text.InOrder.fill_one (by simpa [hspans] using hplace) (hown ?_ ?_) (pieces hrs)
        · exact fun b hb => hls b (List.mem_of_mem_take hb)
        · exact fun b hb => hls b (List.mem_of_mem_drop hb)
      · obtain ⟨k, hk⟩ := Nat.exists_eq_add_of_lt (Nat.lt_of_not_le hle)
        rw [hk, Nat.add_assoc, List.take_length_add_append, List.drop_length_add_append,
          List.take_succ_cons, List.drop_succ_cons] at hplace
        rw [← List.take_append_drop k rs, ← List.cons_append, ← List.append_assoc,
          Tree.weave_eq_fill_own source _ _ htoken htext hnonempty (by simpa [hspan] using hplace),
          List.map_append, List.map_cons, hpiece, List.append_assoc, List.cons_append]
        refine Text.InOrder.fill_one (by simpa [hspans] using hplace) (pieces hls) (hown ?_ ?_)
        · exact fun b hb => hrs b (List.mem_of_mem_take hb)
        · exact fun b hb => hrs b (List.mem_of_mem_drop hb)

/-- **Swapping a subtree for a tree of the same extent** swaps its part of the text. -/
theorem render_replaceAt {t old : Tree} (h : Laid source.text t) {n : Nat}
    (hold : t.subtrees[n]? = some old) (hspan : new.span = old.span) :
    source.text.Range t.span.start old.span.start ∧ source.text.Range old.span.stop t.span.stop ∧
      (Tree.replaceAt new n t).span = t.span ∧
      (Tree.replaceAt new n t).render source =
        slice source.text t.span.start old.span.start ++ new.render source ++
          slice source.text old.span.stop t.span.stop := by
  induction h generalizing n with
  | @node d cs read bare order own children ih =>
      cases n with
      | zero =>
          rw [Tree.subtrees_node, List.getElem?_cons_zero, Option.some.injEq] at hold
          subst hold
          have hstart := order.range.start.range
          have hstop := order.range.stop.range
          refine ⟨hstart, hstop, by rw [Tree.replaceAt_zero, hspan], ?_⟩
          rw [Tree.replaceAt_zero, Tree.span, Tree.root, slice_self, slice_self, List.append_nil,
            List.nil_append]
      | succ n =>
          rw [Tree.subtrees_node, List.getElem?_cons_succ] at hold
          obtain ⟨ls, c, rs, k, rfl, rfl, hc, hreplace⟩ := Tree.exists_child hold
          obtain ⟨hbefore, hafter, hchild, hrender⟩ := ih c (by simp) hc
          have hplaces := order
          rw [List.map_append, List.map_cons, Text.InOrder.middle_iff] at hplaces
          have hleft := hplaces.1.range
          have hright := hplaces.2.2.range
          refine ⟨hleft.trans hbefore, hafter.trans hright, ?_, ?_⟩
          · rw [Tree.replaceAt_succ]
            rfl
          · rw [Tree.replaceAt_succ, hreplace, Tree.render_node, read, bare,
              if_neg Bool.false_ne_true, weave_child (.node read bare order own children) hchild,
              hrender, Render.comment_none, List.append_nil]
            have htop : (Tree.node d (ls ++ c :: rs)).span = d.span := rfl
            rw [htop, ← slice_append hleft hbefore, ← slice_append hafter hright]
            simp only [List.append_assoc]

end Laid

/-! ## What is put in the place of a node -/

/-- A text in parentheses, or as it is. -/
def wrapped (parenthesized : Bool) (text : Text) : Text :=
  if parenthesized then '(' :: (text ++ [')']) else text

/-- What a mutant prints in the place of a node, its comment apart, by the family and the summary
of the mutant: a semicolon, the part of the source with another token, or that part with another
operator and parentheses around the operands and the whole that would otherwise be grouped in
another way. -/
inductive Swapped (s : Text) (place : Option Rewrite.Place) (t : Tree) : Family → String → Text → Prop
  | deletion : Mutator.isDeletable t.kind = true →
      Swapped s place t .statementDeletion ("delete " ++ t.kind.name) [';']
  | unary {old new : UnaryOp} {token : Span} :
      t.kind = .prefixUnary old ∨ t.kind = .postfixUnary old → new.isStep = true → new ≠ old →
      t.root.token = some token → slice s token.start token.stop = old.symbol.toList →
      s.InOrder t.span.start t.span.stop [token] →
      Swapped s place t .unaryOperator (Rewrite.swapSummary old.symbol new.symbol)
        (fill s t.span.start t.span.stop [(token, new.symbol.toList)])
  | identifier {old new : String} {token : Span} :
      t.kind = .identifier old → new ≠ old →
      t.root.token = some token → slice s token.start token.stop = old.toList →
      s.InOrder t.span.start t.span.stop [token] →
      Swapped s place t .identifierReplacement (Rewrite.swapSummary old new)
        (fill s t.span.start t.span.stop [(token, new.toList)])
  | binary {old new : BinaryOp} {left right : Tree} {token : Span} :
      t.kind = .binary old → new ∈ BinaryOp.interchangeable → new ≠ old →
      t.children = [left, right] →
      t.root.token = some token → slice s token.start token.stop = old.symbol.toList →
      s.InOrder t.span.start t.span.stop [left.span, token, right.span] →
      Swapped s place t .binaryOperator (Rewrite.swapSummary old.symbol new.symbol)
        (wrapped (place.any fun p => p.needsParentheses new.precedence)
          (fill s t.span.start t.span.stop
            [(left.span, wrapped (left.kind.precedence < new.precedence)
                (slice s left.span.start left.span.stop)),
              (token, new.symbol.toList),
              (right.span, wrapped (right.kind.precedence ≤ new.precedence)
                (slice s right.span.start right.span.stop))]))

namespace Rewrite

/-- New parentheses are printed around what they hold. -/
theorem render_parenthesized {d : Node} (hkind : d.kind = .parenthesized)
    (hsynthetic : d.synthetic = true) (t : Tree) :
    (Tree.node d [t]).render source = wrapped true (t.render source) ++ Render.comment d.trailing := by
  have hcanonical : ∀ parts,
      Render.canonical .parenthesized parts = '(' :: (parts.flatten ++ [')']) :=
    fun parts => rfl
  rw [Tree.render_node, hkind, hsynthetic, hcanonical]
  simp [wrapped]

/-- An operand has the extent of the tree that it is made of, and prints in parentheses if it
needs them. -/
theorem render_operand (source : Source) (precedence : Nat) (first : Bool) (t : Tree)
    (anchor : Span) :
    ((operand precedence first t).toTree anchor).span = t.span ∧
      ((operand precedence first t).toTree anchor).render source =
        wrapped (t.kind.precedence < precedence || (!first && t.kind.precedence == precedence))
          (t.render source) := by
  rw [toTree_operand]
  split
  · rename_i hneeds
    rw [hneeds, render_parenthesized rfl rfl]
    exact ⟨rfl, List.append_nil _⟩
  · rename_i hneeds
    rw [Bool.not_eq_true] at hneeds
    rw [hneeds]
    exact ⟨rfl, rfl⟩

end Rewrite

namespace Laid

variable {t : Tree}

/-- **A node with another kind** prints as its part of the text with the text of the new kind in
the place of its token. -/
theorem render_retoken (h : Laid source.text t) {kind : Kind} {old new : String}
    (hold : t.kind.tokenText? = some old) (hnew : kind.tokenText? = some new)
    (marker : Option String) : ∃ token, t.root.token = some token ∧
      slice source.text token.start token.stop = old.toList ∧
      source.text.InOrder t.span.start t.span.stop [token] ∧
      (Tree.node ⟨kind, t.span, t.root.token, false, marker⟩ t.children).render source =
        fill source.text t.span.start t.span.stop [(token, new.toList)] ++ Render.comment marker := by
  cases h with
  | @node d cs read bare order own children =>
      obtain ⟨token, htoken, hnonempty, hspelled, hplace⟩ := own old hold
      obtain ⟨hbefore, hhere, hafter⟩ :=
        hplace.of_mem (List.mem_append_right _ List.mem_cons_self)
      refine ⟨token, htoken, hspelled, ⟨hbefore, hhere, hafter⟩, ?_⟩
      have hspans : ∀ bs : List Tree, (bs.map (Tree.piece source)).map Prod.fst = bs.map Tree.span :=
        fun bs => List.map_map
      have hweave := Tree.weave_eq_fill_own source _ _
        (d := ⟨kind, d.span, d.token, false, marker⟩) htoken hnew hnonempty hplace
      rw [List.take_append_drop, Text.InOrder.fill_one (by simpa [hspans] using hplace)
        (pieces fun c hc => children c (List.mem_of_mem_take hc))
        (pieces fun c hc => children c (List.mem_of_mem_drop hc))] at hweave
      rw [Tree.render_node]
      exact congrArg (· ++ Render.comment marker) hweave

/-- A binary expression with another operator prints as its part of the text with the new operator
in the place of the old one, and with other operands of the same extents. -/
theorem render_operator (h : Laid source.text t) {old : BinaryOp} (new : BinaryOp)
    {left right left' right' : Tree}
    (hkind : t.kind = .binary old) (hchildren : t.children = [left, right])
    (hleft : left'.span = left.span) (hright : right'.span = right.span) :
    ∃ token, t.root.token = some token ∧
      slice source.text token.start token.stop = old.symbol.toList ∧
      source.text.InOrder t.span.start t.span.stop [left.span, token, right.span] ∧
      ∀ trailing, (Tree.node ⟨.binary new, t.span, t.root.token, false, trailing⟩
        [left', right']).render source =
          fill source.text t.span.start t.span.stop [(left.span, left'.render source),
            (token, new.symbol.toList), (right.span, right'.render source)] ++
              Render.comment trailing := by
  cases h with
  | @node d cs read bare order own children =>
      change d.kind = .binary old at hkind
      obtain rfl : cs = [left, right] := hchildren
      obtain ⟨token, htoken, hnonempty, hspelled, hplace⟩ := own old.symbol (by rw [hkind]; rfl)
      rw [hkind] at hplace
      refine ⟨token, htoken, hspelled, hplace, fun trailing => ?_⟩
      have hweave := Tree.weave_eq_fill_own source [left'] [right']
        (d := ⟨.binary new, d.span, d.token, false, trailing⟩) htoken rfl hnonempty
        (by simpa [hleft, hright, Kind.leading] using hplace)
      rw [Tree.render_node]
      refine (congrArg (· ++ Render.comment trailing) hweave).trans ?_
      simp only [Tree.piece, hleft, hright, List.map_cons, List.map_nil, List.cons_append,
        List.nil_append]
      rfl

/-- **A binary expression rewritten in a place** prints with parentheses around what would
otherwise be grouped in another way. -/
theorem render_withOperator (h : Laid source.text t) {old : BinaryOp} {left right : Tree}
    (hkind : t.kind = .binary old) (hchildren : t.children = [left, right])
    (place : Option Rewrite.Place) (new : BinaryOp) (marker : Option String) :
    ∃ token, t.root.token = some token ∧
      slice source.text token.start token.stop = old.symbol.toList ∧
      source.text.InOrder t.span.start t.span.stop [left.span, token, right.span] ∧
      (((Rewrite.withOperator t place new).withTrailing marker).toTree t.span).span = t.span ∧
      (((Rewrite.withOperator t place new).withTrailing marker).toTree t.span).render source =
        wrapped (place.any fun p => p.needsParentheses new.precedence)
          (fill source.text t.span.start t.span.stop
            [(left.span, wrapped (left.kind.precedence < new.precedence)
                (slice source.text left.span.start left.span.stop)),
              (token, new.symbol.toList),
              (right.span, wrapped (right.kind.precedence ≤ new.precedence)
                (slice source.text right.span.start right.span.stop))]) ++
          Render.comment marker := by
  obtain ⟨hleft, hleftText⟩ :=
    Rewrite.render_operand source new.precedence true left t.span
  obtain ⟨hright, hrightText⟩ :=
    Rewrite.render_operand source new.precedence false right t.span
  obtain ⟨token, htoken, hspelled, hplace, hrender⟩ :=
    h.render_operator new hkind hchildren hleft hright
  have hleftLaid : Laid source.text left := h.of_child (by simp [hchildren])
  have hrightLaid : Laid source.text right := h.of_child (by simp [hchildren])
  rw [hleftLaid.render_eq, Rewrite.needs_first] at hleftText
  rw [hrightLaid.render_eq, Rewrite.needs_second] at hrightText
  rw [hleftText, hrightText] at hrender
  refine ⟨token, htoken, hspelled, hplace, ?_⟩
  rw [Rewrite.withOperator, hchildren]
  have hmade : ∀ trailing, (((Graft.retoken t (.binary new)).withChildren
      (Rewrite.operands new.precedence [left, right])).withTrailing trailing).toTree t.span = _ :=
    fun trailing => Rewrite.toTree_operator t left right new trailing t.span
  split
  · rename_i hneeds
    rw [hneeds, Rewrite.toTree_parenthesize t.span rfl, Rewrite.render_parenthesized rfl rfl]
    refine ⟨rfl, congrArg (wrapped true · ++ Render.comment marker) ?_⟩
    exact (congrArg (Tree.render source) (hmade none)).trans
      ((hrender none).trans (List.append_nil _))
  · rename_i hneeds
    rw [Bool.not_eq_true] at hneeds
    rw [hmade, hneeds]
    exact ⟨rfl, hrender marker⟩

end Laid

/-- **What a mutator puts in the place of a node** has the extent of the node, and prints as
`Swapped` says, with the comment after it. -/
theorem Rewrite.OfNode.swapped {place : Option Rewrite.Place} {known : String → Prop} {t : Tree}
    {m : Mutator} {r : Rewrite} (h : Rewrite.OfNode place known t m r) (hlaid : Laid source.text t)
    (hbinary : ∀ op, t.kind = .binary op → ∃ left right, t.children = [left, right])
    (marker : Option String) :
    ((r.graft.withTrailing marker).toTree t.span).span = t.span ∧
      ∃ body, Swapped source.text place t m.family r.summary body ∧
        ((r.graft.withTrailing marker).toTree t.span).render source =
          body ++ Render.comment marker := by
  have hretoken : ∀ {old new : String} (kind : Kind), t.kind.tokenText? = some old →
      kind.tokenText? = some new → ∃ token, t.root.token = some token ∧
        slice source.text token.start token.stop = old.toList ∧
        source.text.InOrder t.span.start t.span.stop [token] ∧
        (((Graft.retoken t kind).withTrailing marker).toTree t.span).span = t.span ∧
        (((Graft.retoken t kind).withTrailing marker).toTree t.span).render source =
          fill source.text t.span.start t.span.stop [(token, new.toList)] ++
            Render.comment marker := by
    intro old new kind hold hnew
    obtain ⟨token, htoken, hspelled, hplace, hrender⟩ := hlaid.render_retoken hold hnew marker
    have htree := Rewrite.toTree_retoken t kind marker
    exact ⟨token, htoken, hspelled, hplace, by rw [htree]; rfl, by rw [htree, hrender]⟩
  cases h with
  | @binary old new hkind hnew hne =>
      obtain ⟨left, right, hchildren⟩ := hbinary old hkind
      obtain ⟨token, htoken, hspelled, hplace, hspan, hrender⟩ :=
        hlaid.render_withOperator hkind hchildren place new marker
      exact ⟨hspan, _,
        .binary hkind hnew hne hchildren htoken hspelled hplace, hrender⟩
  | postfixStep hkind hflip =>
      obtain ⟨hstep, hne⟩ := UnaryOp.flipped?_eq_some hflip
      obtain ⟨token, htoken, hspelled, hplace, hspan, hrender⟩ :=
        hretoken (.postfixUnary _) (by rw [hkind]; rfl) rfl
      exact ⟨hspan, _,
        .unary (.inr hkind) hstep hne htoken hspelled hplace, hrender⟩
  | prefixOperator hkind hstep hne =>
      obtain ⟨token, htoken, hspelled, hplace, hspan, hrender⟩ :=
        hretoken (.prefixUnary _) (by rw [hkind]; rfl) rfl
      exact ⟨hspan, _,
        .unary (.inl hkind) hstep hne htoken hspelled hplace, hrender⟩
  | deletion hdeletable =>
      dsimp only
      rw [Rewrite.toTree_deletion, Tree.render_node]
      exact ⟨rfl, _, .deletion hdeletable, rfl⟩
  | identifier hkind _ hne =>
      obtain ⟨token, htoken, hspelled, hplace, hspan, hrender⟩ :=
        hretoken (.identifier _) (by rw [hkind]; rfl) rfl
      exact ⟨hspan, _,
        .identifier hkind hne htoken hspelled hplace, hrender⟩

/-- **The text of a mutant** is the source with one part swapped: what stands before and after the
target is as it was, and in its place stands what `Swapped` says, with the comment after it. -/
theorem render_mutant {source : Text} {d : Document} (h : parse source = .ok d) {p : MutationPlan}
    {ms : List Mutant} (hms : p.mutants d = .ok ms) :
    ∀ m ∈ ms, ∃ t body, d.subtree? m.target = some t ∧
      Swapped source (Rewrite.place? d.arena m.target) t m.family m.summary body ∧
      m.document.render = slice source 0 t.span.start ++ (body ++ Render.comment p.marker) ++
        slice source t.span.stop (width source) := by
  intro m hm
  obtain ⟨r, htarget, hmade, rfl⟩ := MutationPlan.exists_proposal hms m hm
  obtain ⟨rfl, hlaid, hspan⟩ := laid_of_parse h
  have hmem := List.mem_of_getElem? htarget
  have hhere : Laid d.source.text r.old := hlaid.of_mem_subtrees _ hmem
  have hbinary : ∀ op, r.old.kind = .binary op → ∃ left right, r.old.children = [left, right] := by
    intro op hop
    obtain ⟨-, -, -, -, -, hgrammatical, -⟩ := conforms_of_parse h
    obtain ⟨sym, hconforms⟩ := hgrammatical.of_mem_subtrees hmem
    obtain ⟨-, left, right, -, -, hchildren, -⟩ := hconforms.exists_operands hop
    exact ⟨left, right, hchildren⟩
  obtain ⟨hnew, body, hswapped, htext⟩ := hmade.swapped hhere hbinary p.marker
  refine ⟨r.old, body, htarget, hswapped, ?_⟩
  obtain ⟨-, -, -, hrender⟩ := hlaid.render_replaceAt htarget hnew
  rw [hspan, htext] at hrender
  exact hrender

/-- Other operators in a sum whose first summand binds tighter and whose second one does not. -/
theorem render_mutant_sum : ∃ d ms,
    parse "class A \x7b int x = a*b +(c)-/*d*/e; \x7d".toList = .ok d ∧
      MutationPlan.mutants ⟨[.binaryOperator], some "M", false⟩ d = .ok ms ∧ ms.length = 27 ∧
        ∀ m ∈ ms, ∃ t body, d.subtree? m.target = some t ∧
          m.document.render =
            slice "class A \x7b int x = a*b +(c)-/*d*/e; \x7d".toList 0 t.span.start ++
              (body ++ " /* M */".toList) ++
                slice "class A \x7b int x = a*b +(c)-/*d*/e; \x7d".toList t.span.stop
                  (width "class A \x7b int x = a*b +(c)-/*d*/e; \x7d".toList) := by
  have hread : (parse "class A \x7b int x = a*b +(c)-/*d*/e; \x7d".toList).toOption.any
      (fun d => (MutationPlan.mutants ⟨[.binaryOperator], some "M", false⟩ d).toOption.any
        fun ms => ms.length == 27) = true := by
    decide +kernel
  obtain ⟨d, hd, hmutants⟩ := exists_document_of_any hread
  cases hms : MutationPlan.mutants ⟨[.binaryOperator], some "M", false⟩ d with
  | error e =>
      rw [hms] at hmutants
      cases hmutants
  | ok ms =>
      rw [hms] at hmutants
      refine ⟨d, ms, hd, hms, beq_iff_eq.mp hmutants, fun m hm => ?_⟩
      obtain ⟨t, body, htarget, -, hrender⟩ := render_mutant hd hms m hm
      exact ⟨t, body, htarget, hrender⟩

end SharpMutants
