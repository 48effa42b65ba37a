import SharpMutants.Proofs.Completeness
import SharpMutants.Proofs.Neighbours
import SharpMutants.Proofs.Rendering.Lossless
import SharpMutants.Proofs.Scanning.Adjacent

/-!
# The words of a node and those around it

An expression begins with no line feed, point, equals sign or star
(`Derives.exists_first`), and ends with a token of few classes (`Derives.exists_last`).
`exists_context` cuts the tokens of a document at a node: those before it, its own
and those after it.  With another subtree in the place of the node, the words of the tree
are other ones between the same words before and after it.
-/

namespace SharpMutants

open Scan

/-! ## Where expressions begin and end -/

namespace Row

variable {R : Symbol → List Token → Tree → Prop} {ps : List (Part Symbol)} {ts : List Token}
  {own : Option Span} {cs : List Tree} {l : Lexeme} {s : Symbol}

/-- A row that ends in a word ends in its token. -/
theorem exists_last_word (row : Row R (ps ++ [Part.word l]) ts own cs) :
    ∃ (us : List Token) (u : Token), ts = us ++ [u] ∧ u.lexeme = l := by
  obtain ⟨us, _, _, _, _, _, rfl, -, -, -, row⟩ := row.append_inv
  obtain ⟨u, _, rfl, hu, row⟩ := row.word_inv
  obtain ⟨rfl, -, -⟩ := row.nil_inv
  exact ⟨us, u, rfl, hu⟩

/-- A row that ends in a word of its own ends in its token. -/
theorem exists_last_own (row : Row R (ps ++ [Part.own l]) ts own cs) :
    ∃ (us : List Token) (u : Token), ts = us ++ [u] ∧ u.lexeme = l := by
  obtain ⟨us, _, _, _, _, _, rfl, -, -, -, row⟩ := row.append_inv
  obtain ⟨u, _, _, rfl, -, hu, row⟩ := row.own_inv
  obtain ⟨rfl, -, -⟩ := row.nil_inv
  exact ⟨us, u, rfl, hu⟩

/-- A row that ends in a child ends in the tokens of the child. -/
theorem exists_last_child (row : Row R (ps ++ [Part.child s]) ts own cs) :
    ∃ us vs c, ts = us ++ vs ∧ R s vs c := by
  obtain ⟨us, _, _, _, _, _, rfl, -, -, -, row⟩ := row.append_inv
  obtain ⟨vs, _, c, _, rfl, -, hc, row⟩ := row.child_inv
  obtain ⟨rfl, -, -⟩ := row.nil_inv
  exact ⟨us, vs, c, by rw [List.append_nil], hc⟩

end Row

namespace Derives

variable {level : Nat} {ts : List Token} {t : Tree}

/-- An expression begins with no line feed, no point, no equals sign and no star. -/
theorem exists_first (h : Derives (.expression level) ts t)
    (hspelled : ∀ u ∈ ts, u.lexeme.WellSpelled) :
    ∃ u us c cs, ts = u :: us ∧ u.text = c :: cs ∧ c ∉ ['\n', '.', '=', '*'] := by
  obtain ⟨u, us, rfl, hstart⟩ := Parser.exists_start h
  obtain ⟨c, cs, htext, is⟩ := hspelled u List.mem_cons_self
  refine ⟨u, us, c, cs, rfl, htext, ?_⟩
  simp only [List.mem_cons, List.not_mem_nil, or_false]
  rcases token_cases is with ⟨hword, -⟩ | ⟨hdigit, -⟩ | ⟨rfl, -⟩ | ⟨m, hkind, -⟩
  · rintro (rfl | rfl | rfl | rfl) <;> cases hword
  · rintro (rfl | rfl | rfl | rfl) <;> cases hdigit
  · decide
  · change u.kind = .mark m at hkind
    have hmark : (⟨.mark m, u.text⟩ : Lexeme).WellSpelled := hkind ▸ hspelled u List.mem_cons_self
    change u.text = c :: cs at htext
    rw [hmark.mark] at htext
    rw [hkind] at hstart
    cases m <;> first | (cases htext; decide) | cases hstart

/-- An expression ends with a token that ends expressions. -/
theorem exists_last (h : Derives (.expression level) ts t) :
    ∃ us u, ts = us ++ [u] ∧ u.kind.endsExpression = true := by
  refine h.inductionOn (motive := fun s ts _ => ∀ level, s = .expression level →
    ∃ us u, ts = us ++ [u] ∧ u.kind.endsExpression = true) ?_ level rfl
  clear h
  rintro s k ss ts own cs rule row level rfl
  have hword : ∀ (ps : List (Part Symbol)) (l : Lexeme),
      k.phrase ss = ps ++ [Part.word l] ∨ k.phrase ss = ps ++ [Part.own l] →
      l.kind.endsExpression = true → ∃ us u, ts = us ++ [u] ∧ u.kind.endsExpression = true := by
    intro ps l hphrase hl
    obtain ⟨us, u, hts, rfl⟩ := hphrase.elim (fun hword => (hword ▸ row).exists_last_word)
      fun hown => (hown ▸ row).exists_last_own
    exact ⟨us, u, hts, hl⟩
  have hchild : ∀ (ps : List (Part Symbol)) (level : Nat),
      k.phrase ss = ps ++ [Part.child (.expression level)] →
      ∃ us u, ts = us ++ [u] ∧ u.kind.endsExpression = true := by
    intro ps level hphrase
    obtain ⟨us, vs, c, rfl, -, ih⟩ := (hphrase ▸ row).exists_last_child
    obtain ⟨vs, u, rfl, hu⟩ := ih level rfl
    exact ⟨us ++ vs, u, (List.append_assoc us vs [u]).symm, hu⟩
  cases rule with
  | assignment op => exact hchild [.child _, .own _] _ rfl
  | binary op reached => exact hchild [.child _, .own _] _ rfl
  | prefixUnary op reached => exact hchild [.own _] _ rfl
  | @postfixUnary _ op step reached =>
      refine hword [.child _] _ (.inr rfl) ?_
      cases op <;> first | rfl | cases step
  | identifier name reached => exact hword [] _ (.inr rfl) rfl
  | literal value reached =>
      refine hword [] _ (.inr rfl) ?_
      rw [Literal.lexeme, Literal.tokenKind]
      cases value.kind <;> rfl
  | parenthesized reached => exact hword [.word _, .child _] _ (.inl rfl) rfl
  | invocation callee args reached =>
      refine hword (Part.dotted callee ++ .word (.mark .openParen) ::
        Part.commas (.replicate args (.expression 0))) (.mark .closeParen) (.inl ?_) rfl
      rw [Kind.phrase, List.append_assoc, List.cons_append]

/-! ## Words by kind -/

section Kinds

variable {s : Symbol}

/-- A binary expression is an operand, the operator and an operand. -/
theorem binary_inv (h : Derives s ts t) {op : BinaryOp} (hkind : t.kind = .binary op) :
    ∃ us u vs left right, ts = us ++ u :: vs ∧ u.lexeme = .mark op.mark ∧
      t = .node ⟨.binary op, hull ts, some u.span, false, none⟩ [left, right] ∧
      Derives (.expression op.precedence) us left ∧
      Derives (.expression (op.precedence + 1)) vs right := by
  obtain @⟨_, k, ss, _, own, cs, rule, row⟩ := h
  obtain rfl : k = .binary op := hkind
  cases rule with
  | binary _ _ =>
      obtain ⟨us, _, left, _, rfl, rfl, hleft, row⟩ := row.child_inv
      obtain ⟨u, _, _, rfl, rfl, hu, row⟩ := row.own_inv
      obtain ⟨vs, _, right, _, rfl, rfl, hright, row⟩ := row.child_inv
      obtain ⟨rfl, -, rfl⟩ := row.nil_inv
      rw [List.append_nil]
      exact ⟨us, u, vs, left, right, rfl, hu, rfl, hleft, hright⟩

/-- A prefix expression is an operator and an operand. -/
theorem prefixUnary_inv (h : Derives s ts t) {op : UnaryOp} (hkind : t.kind = .prefixUnary op) :
    ∃ u us c, ts = u :: us ∧ u.lexeme = .mark op.mark ∧
      t = .node ⟨.prefixUnary op, hull ts, some u.span, false, none⟩ [c] ∧
      Derives (.expression 7) us c := by
  obtain @⟨_, k, ss, _, own, cs, rule, row⟩ := h
  obtain rfl : k = .prefixUnary op := hkind
  cases rule with
  | prefixUnary _ _ =>
      obtain ⟨u, _, _, rfl, rfl, hu, row⟩ := row.own_inv
      obtain ⟨us, _, c, _, rfl, rfl, hc, row⟩ := row.child_inv
      obtain ⟨rfl, -, rfl⟩ := row.nil_inv
      rw [List.append_nil]
      exact ⟨u, us, c, rfl, hu, rfl, hc⟩

/-- A postfix expression is an operand and an operator. -/
theorem postfixUnary_inv (h : Derives s ts t) {op : UnaryOp} (hkind : t.kind = .postfixUnary op) :
    ∃ (us : List Token) (u : Token) (c : Tree), ts = us ++ [u] ∧ u.lexeme = .mark op.mark ∧
      t = .node ⟨.postfixUnary op, hull ts, some u.span, false, none⟩ [c] ∧
      Derives (.expression 8) us c := by
  obtain @⟨_, k, ss, _, own, cs, rule, row⟩ := h
  obtain rfl : k = .postfixUnary op := hkind
  cases rule with
  | postfixUnary _ _ =>
      obtain ⟨us, _, c, _, rfl, rfl, hc, row⟩ := row.child_inv
      obtain ⟨u, _, _, rfl, rfl, hu, row⟩ := row.own_inv
      obtain ⟨rfl, rfl, rfl⟩ := row.nil_inv
      exact ⟨us, u, c, rfl, hu, rfl, hc⟩

/-- An identifier is one word. -/
theorem identifier_inv (h : Derives s ts t) {name : String} (hkind : t.kind = .identifier name) :
    ∃ u, ts = [u] ∧ u.lexeme = .name name.toList ∧
      t = .node ⟨.identifier name, hull ts, some u.span, false, none⟩ [] := by
  obtain @⟨_, k, ss, _, own, cs, rule, row⟩ := h
  obtain rfl : k = .identifier name := hkind
  cases rule with
  | identifier _ _ =>
      obtain ⟨u, _, _, rfl, rfl, hu, row⟩ := row.own_inv
      obtain ⟨rfl, rfl, rfl⟩ := row.nil_inv
      exact ⟨u, rfl, hu, rfl⟩

end Kinds

end Derives

/-! ## The words around a node -/

/-- Another tree may stand in the place of a child of a row, with its own tokens. -/
theorem Row.exists_middle {R S : Symbol → List Token → Tree → Prop} {ps : List (Part Symbol)}
    {ts : List Token} {own : Option Span} {ls rs : List Tree} {c : Tree}
    (row : Row R ps ts own (ls ++ c :: rs)) (hS : ∀ s ts t, R s ts t → S s ts t) :
    ∃ before us after s, ts = before ++ (us ++ after) ∧ s ∈ Part.children ps ∧ R s us c ∧
      ∀ us' c', S s us' c' → ∃ own', Row S ps (before ++ (us' ++ after)) own' (ls ++ c' :: rs) := by
  generalize hcs : ls ++ c :: rs = cs at row
  induction row generalizing ls with
  | nil => simp at hcs
  | @word t l ps ts own cs is _ ih =>
      obtain ⟨before, us, after, s, rfl, hs, hhere, hnew⟩ := ih hcs
      refine ⟨t :: before, us, after, s, rfl, hs, hhere, fun us' c' h => ?_⟩
      obtain ⟨own', row⟩ := hnew us' c' h
      exact ⟨own', .word is row⟩
  | @own t l ps ts own cs is _ ih =>
      obtain ⟨before, us, after, s, rfl, hs, hhere, hnew⟩ := ih hcs
      refine ⟨t :: before, us, after, s, rfl, hs, hhere, fun us' c' h => ?_⟩
      obtain ⟨own', row⟩ := hnew us' c' h
      exact ⟨_, .own is row⟩
  | @child s ps ts₁ ts₂ own b cs here rest ih =>
      cases ls with
      | nil =>
          obtain ⟨rfl, rfl⟩ := List.cons.inj hcs
          exact ⟨[], ts₁, ts₂, s, rfl, List.mem_cons_self, here,
            fun us' c' h => ⟨own, by
              rw [List.nil_append, List.nil_append]
              exact .child h (rest.mono hS)⟩⟩
      | cons a ls =>
          rw [List.cons_append] at hcs
          obtain ⟨rfl, htail⟩ := List.cons.inj hcs
          obtain ⟨before, us, after, s', rfl, hs, hhere, hnew⟩ := ih htail
          refine ⟨ts₁ ++ before, us, after, s', (List.append_assoc ..).symm,
            List.mem_cons_of_mem _ hs, hhere, fun us' c' h => ?_⟩
          obtain ⟨own', row⟩ := hnew us' c' h
          exact ⟨own', by rw [List.append_assoc]; exact .child (hS _ _ _ here) row⟩

/-- Another child changes the words of a node in its place only. -/
theorem Rule.exists_place {s : Symbol} {d : Node} {ss : List Symbol} {ts : List Token}
    {own : Option Span} {ls rs : List Tree} {c : Tree} (rule : Rule s d.kind ss)
    (row : Row Derives (d.kind.phrase ss) ts own (ls ++ c :: rs)) :
    ∃ before us after s', ts = before ++ (us ++ after) ∧ s' ≠ .unit ∧ Derives s' us c ∧
      ∀ new : Tree, (Tree.node d (ls ++ new :: rs)).yield =
        before.map Token.lexeme ++ (new.yield ++ after.map Token.lexeme) := by
  obtain ⟨before, us, after, s', rfl, hs, hhere, hnew⟩ := row.exists_middle
    (S := fun _ ts t => t.yield = ts.map Token.lexeme) fun _ _ _ h => h.yield_eq
  rw [rule.children rfl] at hs
  refine ⟨before, us, after, s', rfl, rule.ne_unit s' hs, hhere, fun new => ?_⟩
  -- The words of the new child as tokens somewhere.
  have hwords : (new.yield.map fun l => (⟨l.kind, l.text, ⟨0, 0⟩⟩ : Token)).map Token.lexeme =
      new.yield := by
    rw [List.map_map]
    exact List.map_id _
  obtain ⟨own', row⟩ := hnew _ new hwords.symm
  rw [rule.yield_eq row (fun _ _ _ h => h) rfl, List.map_append, List.map_append, hwords]

/-- **Another subtree changes the words of a document** in its place only. -/
theorem exists_context {source : Text} {d : Document} (h : parse source = .ok d) {n : Nat}
    {old : Tree} (hold : d.tree.subtrees[n]? = some old) (hn : n ≠ 0) :
    ∃ (before us after : List Token) (e : Token) (s : Symbol),
      Scan.Scans 0 source (before ++ (us ++ (after ++ [e]))) ∧
      (∀ t ∈ before ++ (us ++ after), t.lexeme.WellSpelled) ∧ e.lexeme = .endOfInput ∧
      s ≠ .unit ∧ Derives s us old ∧ ∀ new : Tree, (Tree.replaceAt new n d.tree).yield =
        before.map Token.lexeme ++ (new.yield ++ after.map Token.lexeme) := by
  obtain ⟨ts, e, ss, cs, hscans, hend, hspelled, rule, row, htree⟩ := exists_row_of_parse h
  -- Go down from the parent.
  have hdown : ∃ before us after s, ts = before ++ (us ++ after) ∧ s ≠ .unit ∧ Derives s us old ∧
      ∀ new : Tree, (Tree.replaceAt new n d.tree).yield =
        before.map Token.lexeme ++ (new.yield ++ after.map Token.lexeme) := by
    induction n using Nat.strong_induction_on generalizing old with
    | _ n ih =>
        rcases Arena.parent?_arena hold with ⟨hroot, -⟩ | ⟨q, e, ls, rs, -, hchild⟩
        · exact absurd hroot hn
        · have hlt : q < n := by
            have := hchild.number
            omega
          by_cases hq : q = 0
          · subst hq
            have hroot := hchild.parent
            rw [Tree.getElem?_subtrees_zero, htree, Option.some.injEq, Tree.node.injEq] at hroot
            obtain ⟨rfl, rfl⟩ := hroot
            obtain ⟨before, us, after, s, hts, hs, hhere, hnew⟩ := rule.exists_place
              (d := ⟨.compilationUnit, ⟨0, Text.width source⟩, none, false, none⟩) row
            refine ⟨before, us, after, s, hts, hs, hhere, fun new => ?_⟩
            rw [hchild.replace, Tree.replaceAt_zero, hnew]
          · obtain ⟨before, us, after, s, rfl, hs, hhere, hnew⟩ := ih q hlt hchild.parent hq
            obtain @⟨_, k, ss', _, own, _, rule', row'⟩ := hhere
            obtain ⟨before', us', after', s', rfl, hs', hhere', hnew'⟩ := rule'.exists_place
              (d := ⟨k, hull us, own, false, none⟩) row'
            refine ⟨before ++ before', us', after' ++ after, s', by simp, hs', hhere',
              fun new => ?_⟩
            rw [hchild.replace, hnew, hnew']
            simp
  obtain ⟨before, us, after, s, rfl, hs, hhere, hnew⟩ := hdown
  exact ⟨before, us, after, e, s, by simpa using hscans, hspelled, hend, hs, hhere, hnew⟩

end SharpMutants
