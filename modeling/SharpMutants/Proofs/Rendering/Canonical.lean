import SharpMutants.Proofs.Completeness
import SharpMutants.Proofs.Layout.Bare
import SharpMutants.Proofs.Neighbours
import SharpMutants.Proofs.Rendering.Forms

/-!
# Canonical printing

A tree of the grammar prints as its words in canonical form, just if no sign stands in it before an
operand that begins with the same sign (`Conforms.printed`).  So a document whose tree is
made of new nodes only is read back as its own tree in exactly these cases
(`synthesis_reads_back`).  In the others there is no blank between the signs, and two of them are
read as a step (`exists_unreadable_synthesis`).
-/

namespace SharpMutants

open Scan

/-! ## Signs -/

/-- A unary operator goes on with no other character than a sign or an equals sign. -/
theorem TokenKind.goesOn_sign {op : UnaryOp} {c : Char} {rest : Text} (hc : c ∉ ['+', '-', '=']) :
    (mark op.mark).goesOn (c :: rest) = false := by
  simp only [List.mem_cons, List.not_mem_nil, or_false, not_or] at hc
  obtain ⟨hplus, hminus, hequal⟩ := hc
  cases op with
  | increment => rfl
  | decrement => rfl
  | _ =>
    simp only [goesOn, UnaryOp.mark, Mark.characters, comes, opensComment, List.head?_cons,
      Option.any_some, Bool.or_eq_false_iff, Option.isSome_eq_false_iff, Option.isNone_iff_eq_none]
    refine ⟨ofPair?_eq_none hequal ?_, rfl⟩
    rintro rfl
    simp_all

/-- A sign goes on with the same sign, and no other unary operator goes on with one. -/
theorem TokenKind.goesOn_symbol (op op' : UnaryOp) (rest : Text) :
    (mark op.mark).goesOn (op'.symbol.toList ++ rest) =
      ((op == .negate || op == .plus) && op.symbol.toList.isPrefixOf op'.symbol.toList) := by
  cases op <;> cases op' <;> rfl

/-- A text begins with a character with which no sign goes on. -/
def Plain (text : Text) : Prop := ∃ c ∈ text.head?, c ∉ ['+', '-', '=']

/-- More text behind a plain one leaves it plain. -/
theorem Plain.append {text : Text} (h : Plain text) (rest : Text) : Plain (text ++ rest) := by
  obtain ⟨c, hc, hplain⟩ := h
  cases text with
  | nil => cases hc
  | cons d cs => exact ⟨c, hc, hplain⟩

/-- A word that is no mark does not begin as one. -/
theorem Lexeme.WellSpelled.plain {l : Lexeme} (h : l.WellSpelled)
    (hmark : ∀ m, l.kind ≠ .mark m) : Plain l.text := by
  obtain ⟨c, cs, htext, is⟩ := h
  rw [htext]
  refine ⟨c, rfl, ?_⟩
  simp only [List.mem_cons, List.not_mem_nil, or_false]
  rcases token_cases is with ⟨word, -⟩ | ⟨digit, -⟩ | ⟨rfl, -⟩ | ⟨m, hm, -⟩
  · rintro (rfl | rfl | rfl) <;> cases word
  · rintro (rfl | rfl | rfl) <;> cases digit
  · decide
  · exact absurd hm (hmark m)

/-- A dotted name begins with its first name. -/
theorem plain_dotted {path : String} (h : ∀ l ∈ Lexeme.dotted path, l.WellSpelled) :
    Plain path.toList := by
  rw [← show ['.'].intercalate (path.toList.splitOn '.') = path.toList from
    List.intercalate_splitOn '.']
  rw [Lexeme.dotted] at h
  cases hnames : path.toList.splitOn '.' with
  | nil => exact absurd hnames (List.splitOn_ne_nil _ _)
  | cons n ns =>
      rw [hnames] at h
      have hfirst : Plain n := (h (.name n) List.mem_cons_self).plain (by simp [Lexeme.name])
      cases ns with
      | nil => simpa [List.intercalate] using hfirst
      | cons m ns => simpa [List.intercalate] using hfirst.append _

/-- An operand of a unary operator is itself one, or begins with no sign. -/
theorem Conforms.print_operand {level : Nat} {t : Tree} (h : Conforms (.expression level) t)
    (hlevel : 7 ≤ level) :
    (level = 7 ∧ ∃ op rest, t.kind = .prefixUnary op ∧ t.print = op.symbol.toList ++ rest) ∨
      (∀ op, t.kind ≠ .prefixUnary op) ∧ Plain t.print := by
  refine h.inductionOn (motive := fun s t => ∀ level, s = .expression level → 7 ≤ level →
    (level = 7 ∧ ∃ op rest, t.kind = .prefixUnary op ∧ t.print = op.symbol.toList ++ rest) ∨
      (∀ op, t.kind ≠ .prefixUnary op) ∧ Plain t.print) ?_ level rfl hlevel
  clear h hlevel level
  rintro s d ss cs rule spelled children level rfl hlevel
  rw [Tree.print_node, Tree.kind, Tree.root]
  generalize d.kind = k at rule spelled ⊢
  cases rule with
  | assignment op => omega
  | binary op reached =>
      have : op.precedence ≤ 6 := by cases op <;> decide
      omega
  | prefixUnary op reached => exact .inl ⟨by omega, op, _, rfl, rfl⟩
  | postfixUnary step reached =>
      obtain _ | ⟨⟨-, hoperand⟩, _ | _⟩ := children
      rcases hoperand 8 rfl (by decide) with ⟨habsurd, -⟩ | ⟨-, hplain⟩
      · cases habsurd
      · exact .inr ⟨by simp, (hplain.append []).append _⟩
  | identifier name reached =>
      have hname : (Lexeme.name name.toList).WellSpelled := spelled _ List.mem_cons_self
      exact .inr ⟨by simp, hname.plain (by simp [Lexeme.name])⟩
  | literal value reached =>
      have hvalue : value.lexeme.WellSpelled := spelled _ List.mem_cons_self
      refine .inr ⟨by simp, hvalue.plain ?_⟩
      unfold Literal.lexeme Literal.tokenKind
      cases value.kind <;> simp
  | parenthesized reached => exact .inr ⟨by simp, '(', rfl, by decide⟩
  | invocation callee args reached =>
      have hcallee : ∀ l ∈ Lexeme.dotted callee, l.WellSpelled := by
        intro l hl
        apply spelled
        simp [Kind.phrase, Part.lexemes_append, hl]
      exact .inr ⟨by simp, (((plain_dotted hcallee).append _).append _).append _⟩

/-- A sign prints as its word if the operand does not begin with the same sign, and else does
not. -/
theorem Tree.printed_prefixUnary {d : Node} {op : UnaryOp} {a : Tree}
    (hd : d.kind = .prefixUnary op) (h : Conforms (.expression 7) a) (ha : a.Printed) :
    (node d [a]).Printed := by
  have hmeets : ∀ after, (TokenKind.mark op.mark).goesOn (a.print ++ after) =
      (node d [a]).meetsSign := by
    intro after
    rw [meetsSign_prefixUnary hd]
    rcases h.print_operand (Nat.le_refl 7) with
      ⟨-, op', rest, hkind, htext⟩ | ⟨hkind, c, hc, hplain⟩
    · rw [hkind, htext, List.append_assoc]
      exact TokenKind.goesOn_symbol op op' _
    · obtain ⟨cs, hcs⟩ : ∃ cs, a.print = c :: cs := List.head?_eq_some_iff.mp hc
      rw [hcs, List.cons_append, TokenKind.goesOn_sign hplain]
      split
      · exact absurd ‹_› (hkind _)
      · rfl
  have hprint : (node d [a]).print = (Lexeme.mark op.mark).text ++ a.print := by
    rw [print_node, hd]
    show op.symbol.toList ++ (a.print ++ []) = _
    rw [List.append_nil, op.symbol_toList]
    rfl
  have hyield : (node d [a]).yield = Lexeme.mark op.mark :: a.yield := by
    rw [yield_node, hd]
    simp [Kind.phrase]
  intro after ms hafter
  rw [hprint, hyield, List.append_assoc, List.cons_append,
    reads_word (Lexeme.wellSpelled_mark op.mark) (fun h => by cases op <;> cases h),
    ha after ms hafter, signsMeet_node]
  show (TokenKind.mark op.mark).goesOn _ = false ∧ _ ↔ _
  rw [hmeets]
  simp [and_assoc]

variable {s : Symbol} {k : Kind} {ss : List Symbol} {cs : List Tree} {t : Tree}

/-- The other nodes print as their words if their children do. -/
theorem Rule.printed (rule : Rule s k ss) (spelled : Part.Spelled (k.phrase ss))
    (hlength : ss.length = cs.length) (hcs : ∀ c ∈ cs, c.Printed)
    (hk : ∀ op, k ≠ .prefixUnary op) : k.Printed cs := by
  cases rule with
  | compilationUnit => exact Kind.printed_compilationUnit hcs
  | usingDirective path =>
      obtain rfl : cs = [] := List.eq_nil_of_length_eq_zero hlength.symm
      apply Kind.printed_usingDirective
      intro l hl
      apply spelled
      simp [Kind.phrase, Part.lexemes, Part.lexemes_append, hl]
  | namespaceDecl path =>
      apply Kind.printed_namespaceDecl hcs
      intro l hl
      apply spelled
      simp [Kind.phrase, Part.lexemes, Part.lexemes_append, hl]
  | classDecl inNamespace name ms =>
      apply Kind.printed_classDecl hcs
      apply spelled
      simp [Kind.phrase, Part.lexemes, Part.lexemes_append]
  | fieldDecl ms => exact Kind.printed_fieldDecl hcs ms
  | methodDecl name ms type =>
      rcases List.eq_nil_or_concat cs with rfl | ⟨ds, body, rfl⟩
      · simp at hlength
      · rw [List.concat_eq_append, List.forall_mem_append] at hcs
        rw [List.concat_eq_append]
        apply Kind.printed_methodDecl hcs.1 (hcs.2 body List.mem_cons_self)
        apply spelled
        simp [Kind.phrase, Part.lexemes, Part.lexemes_append]
  | parameter name =>
      obtain rfl : cs = [] := List.eq_nil_of_length_eq_zero hlength.symm
      apply Kind.printed_parameter
      apply spelled
      simp [Kind.phrase, Part.lexemes]
  | body | block => exact Kind.printed_block hcs
  | localDeclaration =>
      obtain ⟨a, rfl⟩ := List.length_eq_one_iff.mp hlength.symm
      exact Kind.printed_localDeclaration (hcs a List.mem_cons_self)
  | variableDeclaration => exact Kind.printed_variableDeclaration hcs _
  | uninitialized name =>
      obtain rfl : cs = [] := List.eq_nil_of_length_eq_zero hlength.symm
      exact Kind.printed_uninitialized (spelled _ List.mem_cons_self)
  | initialized name =>
      obtain ⟨a, rfl⟩ := List.length_eq_one_iff.mp hlength.symm
      exact Kind.printed_initialized (hcs a List.mem_cons_self) (spelled _ List.mem_cons_self)
  | expressionStatement =>
      obtain ⟨a, rfl⟩ := List.length_eq_one_iff.mp hlength.symm
      exact Kind.printed_expressionStatement (hcs a List.mem_cons_self)
  | emptyStatement =>
      obtain rfl : cs = [] := List.eq_nil_of_length_eq_zero hlength.symm
      exact Kind.printed_emptyStatement
  | ifThen =>
      obtain ⟨a, b, rfl⟩ := List.length_eq_two.mp hlength.symm
      obtain ⟨ha, hb⟩ := List.forall_mem_cons.mp hcs
      exact Kind.printed_ifStatement ha hb
  | ifElse =>
      obtain ⟨a, b, c, rfl⟩ := List.length_eq_three.mp hlength.symm
      obtain ⟨ha, hbranches⟩ := List.forall_mem_cons.mp hcs
      exact Kind.printed_ifStatement ha hbranches
  | elseClause =>
      obtain ⟨a, rfl⟩ := List.length_eq_one_iff.mp hlength.symm
      exact Kind.printed_elseClause (hcs a List.mem_cons_self)
  | whileStatement =>
      obtain ⟨a, b, rfl⟩ := List.length_eq_two.mp hlength.symm
      exact Kind.printed_whileStatement (hcs a (by simp)) (hcs b (by simp))
  | forDeclaration | forExpression =>
      obtain ⟨a, ds, rfl, hds⟩ := List.length_eq_succ_iff.mp hlength.symm
      obtain ⟨b, c, d, rfl⟩ := List.length_eq_three.mp hds
      exact Kind.printed_forStatement (hcs a (by simp)) (hcs b (by simp)) (hcs c (by simp))
        (hcs d (by simp))
  | returnNothing =>
      obtain rfl : cs = [] := List.eq_nil_of_length_eq_zero hlength.symm
      exact Kind.printed_returnNothing
  | returnValue =>
      obtain ⟨a, rfl⟩ := List.length_eq_one_iff.mp hlength.symm
      exact Kind.printed_returnValue (hcs a List.mem_cons_self)
  | assignment op =>
      obtain ⟨a, b, rfl⟩ := List.length_eq_two.mp hlength.symm
      exact Kind.printed_assignment (hcs a (by simp)) (hcs b (by simp)) op
  | binary op =>
      obtain ⟨a, b, rfl⟩ := List.length_eq_two.mp hlength.symm
      exact Kind.printed_binary (hcs a (by simp)) (hcs b (by simp)) op
  | prefixUnary op => exact absurd rfl (hk op)
  | postfixUnary step =>
      obtain ⟨a, rfl⟩ := List.length_eq_one_iff.mp hlength.symm
      exact Kind.printed_postfixUnary (hcs a List.mem_cons_self) step
  | identifier name =>
      obtain rfl : cs = [] := List.eq_nil_of_length_eq_zero hlength.symm
      exact Kind.printed_identifier (spelled _ List.mem_cons_self)
  | literal value =>
      obtain rfl : cs = [] := List.eq_nil_of_length_eq_zero hlength.symm
      exact Kind.printed_literal (spelled _ List.mem_cons_self)
  | parenthesized =>
      obtain ⟨a, rfl⟩ := List.length_eq_one_iff.mp hlength.symm
      exact Kind.printed_parenthesized (hcs a List.mem_cons_self)
  | invocation callee =>
      apply Kind.printed_invocation hcs
      intro l hl
      apply spelled
      simp [Kind.phrase, Part.lexemes_append, hl]

/-- **A tree of the grammar prints as its words** before whatever breaks off, just if no signs meet
in it. -/
theorem Conforms.printed (h : Conforms s t) : t.Printed := by
  refine h.inductionOn (motive := fun _ t => t.Printed) ?_
  clear h
  intro s d ss cs rule spelled children
  have hcs : ∀ c ∈ cs, c.Printed := by
    intro c hc
    obtain ⟨n, hn, rfl⟩ := List.getElem_of_mem hc
    exact (children.get (i := n) (by rw [children.length_eq]; exact hn) hn).2
  by_cases hk : ∀ op, d.kind ≠ .prefixUnary op
  · have hnode := rule.printed spelled children.length_eq hcs hk
    apply hnode.of_eq (Tree.print_node d cs) (Tree.yield_node d cs)
    rw [Tree.signsMeet_node, Tree.meetsSign_eq_false (t := .node d cs) hk]
    simp
  · obtain ⟨op, hd⟩ := not_forall_not.mp hk
    rw [hd] at rule
    cases rule with
    | prefixUnary _ reached =>
        obtain _ | ⟨⟨hconforms, hprinted⟩, _ | _⟩ := children
        exact Tree.printed_prefixUnary hd hconforms hprinted

/-! ## Whole documents -/

namespace Tree

mutual

/-- The graft that is made of new nodes only, of the kinds of a tree. -/
def synthesis : Tree → Graft
  | node d cs => .synthetic d.kind (syntheses cs)

/-- The same for the trees of a list. -/
def syntheses : List Tree → List Graft
  | [] => []
  | c :: cs => c.synthesis :: syntheses cs

end

/-- The trees of synthesized lists are the synthesized trees. -/
theorem toTrees_syntheses (anchor : Span) (cs : List Tree) :
    Graft.toTrees anchor (syntheses cs) = cs.map fun c => c.synthesis.toTree anchor := by
  induction cs with
  | nil => rw [syntheses, Graft.toTrees, List.map_nil]
  | cons c cs ih => rw [syntheses, Graft.toTrees, ih, List.map_cons]

/-- A new node has the kind of the old one and new children in place of the old ones. -/
theorem exists_toTree_synthesis (d : Node) (cs : List Tree) (anchor : Span) : ∃ extent,
    (node d cs).synthesis.toTree anchor = node ⟨d.kind, extent, none, true, none⟩
      (cs.map fun c => c.synthesis.toTree extent) := by
  rw [synthesis, Graft.synthetic, Graft.toTree, toTrees_syntheses]
  exact ⟨_, rfl⟩

/-- **All nodes are new** in the tree of a synthesis. -/
theorem synthetic_synthesis (t : Tree) (anchor : Span) :
    ∀ u ∈ (t.synthesis.toTree anchor).subtrees, u.root.synthetic = true := by
  induction t using Tree.inductionOn generalizing anchor with
  | node d cs ih =>
      obtain ⟨extent, htree⟩ := exists_toTree_synthesis d cs anchor
      rw [htree, subtrees_node, List.forall_mem_cons]
      refine ⟨rfl, fun u hu => ?_⟩
      obtain ⟨_, hmap, hu⟩ := mem_subtreesOf.mp hu
      obtain ⟨c, hc, rfl⟩ := List.mem_map.mp hmap
      exact ih c hc extent u hu

/-- A synthesis changes the layout of a tree only. -/
theorem bare_synthesis (t : Tree) (anchor : Span) : (t.synthesis.toTree anchor).bare = t.bare := by
  induction t using Tree.inductionOn generalizing anchor with
  | node d cs ih =>
      obtain ⟨extent, htree⟩ := exists_toTree_synthesis d cs anchor
      rw [htree, bare_node, bare_node, List.map_map]
      exact congrArg _ (List.map_congr_left fun c hc => ih c hc extent)

/-- **A synthesis is printed in the canonical form.** -/
theorem render_synthesis (source : Source) (t : Tree) (anchor : Span) :
    (t.synthesis.toTree anchor).render source = t.print := by
  induction t using Tree.inductionOn generalizing anchor with
  | node d cs ih =>
      obtain ⟨extent, htree⟩ := exists_toTree_synthesis d cs anchor
      rw [htree, render_node, print_node, if_pos rfl, List.map_map, Render.comment_none,
        List.append_nil]
      exact congrArg _ (List.map_congr_left fun c hc => ih c hc extent)

/-- The words of a tree do not depend on its layout. -/
theorem yield_bare (t : Tree) : t.bare.yield = t.yield := by
  induction t using Tree.inductionOn with
  | node d cs ih =>
      have hcs : (cs.map bare).map yield = cs.map yield := by
        rw [List.map_map]
        exact List.map_congr_left ih
      rw [bare_node, yield_node, yield_node, hcs, Node.kind_bare]

/-- Trees of one shape have one yield. -/
theorem yield_eq_of_shape {t u : Tree} (h : t.shape = u.shape) : t.yield = u.yield := by
  rw [← yield_bare t, bare_eq_iff.mpr h, yield_bare]

end Tree

/-- A text is read as a tree of the shape of one of the grammar just if it is made of its words. -/
theorem reads_yield_iff {source : Text} (ht : t.Grammatical) :
    Reads source t.yield ↔ ∃ e, parse source = .ok e ∧ e.tree.sameShape t = true := by
  rw [reads_iff_tokenize]
  constructor
  · rintro ⟨tokens, htokens, hwords⟩
    obtain ⟨e, hparse, -, hshape⟩ := exists_parse_of_yield htokens ht hwords
    exact ⟨e, hparse, beq_iff_eq.mpr hshape⟩
  · rintro ⟨e, hparse, hshape⟩
    obtain ⟨tokens, last, htokens, hlast, -, -, hyield⟩ := conforms_of_parse hparse
    refine ⟨_, htokens, ?_⟩
    rw [List.map_append, List.map_singleton, hlast, ← hyield,
      Tree.yield_eq_of_shape (beq_iff_eq.mp hshape)]

/-- **Canonical printing.**  The root of a document is replaced by a tree of the grammar that is
made of new nodes only.  Then the text of the document is read as a tree of the same shape, just if
no sign stands before an operand that begins with the same sign. -/
theorem synthesis_reads_back (ht : t.Grammatical) (d : Document) :
    (∀ u ∈ (d.replace 0 t.synthesis).tree.subtrees, u.root.synthetic = true) ∧
      (d.replace 0 t.synthesis).tree.sameShape t = true ∧
      ((∃ e, parse (d.replace 0 t.synthesis).render = .ok e ∧ e.tree.sameShape t = true) ↔
        t.signsMeet = false) := by
  have htree : (d.replace 0 t.synthesis).tree = t.synthesis.toTree d.tree.span := by
    rw [Document.replace, Document.subtree?, Tree.subtree?, Tree.getElem?_subtrees_zero]
    exact Tree.replaceAt_zero _ _
  have hrender : (d.replace 0 t.synthesis).render = t.print := by
    rw [Document.render, htree]
    exact Tree.render_synthesis _ t _
  have hprinted := ht.printed [] [] (by simp [Breaks])
  rw [List.append_nil, List.append_nil, reads_nil] at hprinted
  refine ⟨?_, ?_, ?_⟩
  · rw [htree]
    exact Tree.synthetic_synthesis t _
  · rw [htree]
    exact beq_iff_eq.mpr (Tree.bare_eq_iff.mp (Tree.bare_synthesis t _))
  · rw [hrender, ← reads_yield_iff ht, hprinted, and_iff_left rfl]

/-- A method in which signs stand before operands with other signs. -/
theorem synthesis_reads_back_signs : ∃ d,
    parse
      "class C \x7b static int M(int a) \x7b if (a > 1.5) return - +a; a = - ++a; \x7d \x7d".toList =
        .ok d ∧
      d.tree.Grammatical ∧ d.tree.signsMeet = false ∧
      ∃ e, parse (d.replace 0 d.tree.synthesis).render = .ok e ∧
        e.tree.sameShape d.tree = true := by
  have hread : (parse
      "class C \x7b static int M(int a) \x7b if (a > 1.5) return - +a; a = - ++a; \x7d \x7d".toList
        ).toOption.any (fun d => !d.tree.signsMeet) = true := by
    decide +kernel
  obtain ⟨d, hd, hsigns⟩ := exists_document_of_any hread
  rw [Bool.not_eq_true'] at hsigns
  obtain ⟨-, -, -, -, -, ht, -⟩ := conforms_of_parse hd
  obtain ⟨-, -, hback⟩ := synthesis_reads_back ht d
  exact ⟨d, hd, ht, hsigns, hback.mpr hsigns⟩

/-- A minus before a minus is printed without a blank and read as a step. -/
theorem exists_unreadable_synthesis : ∃ d e,
    parse "class C \x7b int M(int a) \x7b return - -a; \x7d \x7d".toList = .ok d ∧
      d.tree.Grammatical ∧ parse (d.replace 0 d.tree.synthesis).render = .ok e ∧
      e.tree.sameShape d.tree = false := by
  have hread : (parse "class C \x7b int M(int a) \x7b return - -a; \x7d \x7d".toList).toOption.any
      (fun d => (parse (d.replace 0 d.tree.synthesis).render).toOption.any
        fun e => !e.tree.sameShape d.tree) = true := by
    decide +kernel
  obtain ⟨d, hd, hagain⟩ := exists_document_of_any hread
  obtain ⟨e, he, hshape⟩ := exists_document_of_any hagain
  obtain ⟨-, -, -, -, -, ht, -⟩ := conforms_of_parse hd
  exact ⟨d, e, hd, ht, he, by simpa using hshape⟩

end SharpMutants
