import SharpMutants.Proofs.Rendering.Slices
import SharpMutants.Proofs.Soundness

/-!
# Printing what was read

`Laid s t` says that a tree lies over a text as it was read from it: the children of
a node stand one after another in its extent, its own token stands in its place among
them and is spelled in the text as it prints, and no node is made by an edit.  The
tokens of a source stand one after another, so the tree of a document lies over its
source (`Derives.laid`, `laid_of_parse`).

What lies over a text prints as its part of the text, so printing is lossless:
`render_eq_source`.
-/

namespace SharpMutants

/-- How many children of a node stand before its own token. -/
def Kind.leading : Kind → Nat
  | .assignment _ | .binary _ | .postfixUnary _ => 1
  | _ => 0

/-- A tree lies over a text as it was read from it. -/
inductive Laid (s : Text) : Tree → Prop
  | node {d : Node} {cs : List Tree} (read : d.synthetic = false) (bare : d.trailing = none)
      (order : s.InOrder d.span.start d.span.stop (cs.map Tree.span))
      (own : ∀ text, d.kind.tokenText? = some text → ∃ token, d.token = some token ∧
        token.start < token.stop ∧ Text.slice s token.start token.stop = text.toList ∧
        s.InOrder d.span.start d.span.stop ((cs.take d.kind.leading).map Tree.span ++
          token :: (cs.drop d.kind.leading).map Tree.span))
      (children : ∀ c ∈ cs, Laid s c) : Laid s (.node d cs)

namespace Laid

variable {s : Text} {source : Source} {t : Tree}

/-- A tree that lies over a text has a slice of it. -/
theorem range (h : Laid s t) : s.Range t.span.start t.span.stop := by
  cases h with
  | node _ _ order _ _ => exact order.range

/-- **What lies over a text prints as its part of the text.** -/
theorem render_eq (h : Laid source.text t) :
    t.render source = Text.slice source.text t.span.start t.span.stop := by
  induction h with
  | @node d cs read bare order own _ ih =>
      have hpieces : ∀ bs ⊆ cs, bs.map (Tree.piece source) = (bs.map Tree.span).map fun span =>
          (span, Text.slice source.text span.start span.stop) := by
        intro bs hbs
        rw [List.map_map]
        exact List.map_congr_left fun c hc => by rw [Tree.piece, ih c (hbs hc)]; rfl
      have hweave : Tree.weave source d d.span.start cs =
          Text.slice source.text d.span.start d.span.stop := by
        cases htext : d.kind.tokenText? with
        | none =>
            rw [Tree.weave_eq_fill (fun _ _ _ _ _ _ h => by simp [htext] at h) order,
              hpieces cs (List.Subset.refl cs), order.fill_slices]
        | some text =>
            obtain ⟨token, htoken, hnonempty, hspelled, hplace⟩ := own text htext
            rw [← List.take_append_drop d.kind.leading cs,
              Tree.weave_eq_fill_own source _ _ htoken htext hnonempty hplace,
              hpieces _ (List.take_subset _ _), hpieces _ (List.drop_subset _ _), ← hspelled]
            simpa using hplace.fill_slices
      rw [Tree.render_node, read, bare, hweave]
      exact List.append_nil _

/-- All subtrees lie over a text, if those of each tree do. -/
theorem of_mem_subtreesOf {cs : List Tree}
    (h : ∀ c ∈ cs, ∀ t ∈ c.subtrees, Laid s t) : ∀ t ∈ Tree.subtreesOf cs, Laid s t := by
  induction cs with
  | nil => simp [Tree.subtreesOf_nil]
  | cons c cs ih =>
      rw [Tree.subtreesOf_cons]
      exact List.forall_mem_append.mpr ⟨h c List.mem_cons_self,
        ih fun c hc => h c (List.mem_cons_of_mem _ hc)⟩

/-- So do all subtrees. -/
theorem of_mem_subtrees (h : Laid s t) : ∀ u ∈ t.subtrees, Laid s u := by
  induction h with
  | node read bare order own children ih =>
      rw [Tree.subtrees_node]
      exact List.forall_mem_cons.mpr
        ⟨.node read bare order own children, of_mem_subtreesOf ih⟩

end Laid

/-! ## Tokens in a text -/

namespace Text.InOrder

variable {s : Text} {a b : Nat} {spans spans' : List Span}

/-- Of ranges in order the first ones are in order. -/
theorem left (h : s.InOrder a b (spans ++ spans')) : s.InOrder a b spans := by
  induction spans generalizing a with
  | nil => exact h.range
  | cons span spans ih => exact ⟨h.1, h.2.1, ih h.2.2⟩

/-- Some tokens stand one after another from the first to the last, and the others follow them. -/
theorem cut_hull {ts us : List Token} (hts : ts ≠ []) (h : s.InOrder a b ((ts ++ us).map Token.span)) :
    s.Range a (hull ts).start ∧ s.InOrder (hull ts).start (hull ts).stop (ts.map Token.span) ∧
      s.InOrder (hull ts).stop b (us.map Token.span) := by
  have hrest : ∀ {m : Nat} {ts : List Token}, s.InOrder m b ((ts ++ us).map Token.span) →
      s.InOrder m (stopAfter m ts) (ts.map Token.span) ∧
        s.InOrder (stopAfter m ts) b (us.map Token.span) := by
    intro m ts h
    induction ts generalizing m with
    | nil => exact ⟨h.range.start.range, h⟩
    | cons t ts ih =>
        obtain ⟨hbefore, hhere, h⟩ := h
        obtain ⟨hinside, hafter⟩ := ih h
        exact ⟨⟨hbefore, hhere, hinside⟩, hafter⟩
  obtain ⟨t, ts, rfl⟩ := List.exists_cons_of_ne_nil hts
  obtain ⟨hbefore, hhere, h⟩ := h
  obtain ⟨hinside, hafter⟩ := hrest h
  exact ⟨hbefore, ⟨hhere.start.range, hhere, hinside⟩, hafter⟩

end Text.InOrder

/-- A token is spelled in a text as it says, in at least one character. -/
structure Token.Stands (s : Text) (t : Token) : Prop where
  nonempty : t.span.start < t.span.stop
  spelled : Text.slice s t.span.start t.span.stop = t.text

namespace Scan.Scans

variable {source text : Text} {o : Nat} {ts : List Token}

/-- **The tokens of a source stand one after another**, each spelled as it says. -/
theorem inOrder (h : Scans o text ts) {before : Text} (hsource : source = before ++ text)
    (ho : Text.width before = o) :
    source.InOrder o (Text.width source) (ts.map Token.span) ∧
      ∀ t ∈ ts, t.kind ≠ .endOfInput → t.Stands source := by
  -- A piece of the text is passed over.
  have hpass : ∀ {o : Nat} {before : Text} {c : Char} {as bs : Text},
      source = before ++ (c :: (as ++ bs)) → Text.width before = o →
        source = (before ++ c :: as) ++ bs ∧
          Text.width (before ++ c :: as) = o + Text.width (c :: as) ∧
            source.Range o (o + Text.width (c :: as)) := by
    intro o before c as bs hsource ho
    have hsplit : source = (before ++ c :: as) ++ bs := by
      rw [hsource, List.append_assoc, List.cons_append]
    have hwidth : Text.width (before ++ c :: as) = o + Text.width (c :: as) := by
      rw [Text.width_append, ho]
    exact ⟨hsplit, hwidth, ⟨_, _, hsource, ho⟩, Nat.le_add_right _ _, ⟨_, _, hsplit, hwidth⟩⟩
  induction h generalizing before with
  | nil o =>
      have hall : Text.width source = o := by rw [hsource, List.append_nil, ho]
      have hhere : source.Range o o := Text.Boundary.range ⟨before, [], hsource, ho⟩
      exact ⟨⟨hhere, hhere, hall ▸ hhere⟩, by simp⟩
  | trivia _ _ ih =>
      obtain ⟨hsplit, hwidth, hrange⟩ := hpass hsource ho
      exact (ih hsplit hwidth).imp_left (·.widen hrange)
  | @token o c as bs k ts is _ ih =>
      obtain ⟨hsplit, hwidth, hrange⟩ := hpass hsource ho
      obtain ⟨horder, hstands⟩ := ih hsplit hwidth
      refine ⟨⟨hrange.start.range, hrange, horder⟩, List.forall_mem_cons.mpr ⟨fun _ => ⟨?_, ?_⟩,
        hstands⟩⟩
      · have hpos := Char.utf8Size_pos c
        exact Nat.lt_add_of_pos_right (Nat.lt_of_lt_of_le hpos (Nat.le_add_right _ _))
      · rw [hsource, ← List.cons_append]
        exact Text.slice_eq before (c :: as) bs ho (by rw [ho])

end Scan.Scans

/-! ## Derived trees -/

/-- A whole source stands below no other symbol. -/
theorem Rule.ne_unit {s : Symbol} {k : Kind} {ss : List Symbol} (rule : Rule s k ss) :
    ∀ s ∈ ss, s ≠ .unit := by
  cases rule <;> simp +contextual [or_imp]

namespace Row

variable {s : Text} {a b : Nat} {R : Symbol → List Token → Tree → Prop} {ps qs : List (Part Symbol)}
  {ts : List Token} {own : Option Span} {cs : List Tree}

/-- A tree covers its tokens, and it has some. -/
def Covering (R : Symbol → List Token → Tree → Prop) : Prop :=
  ∀ s ts t, s ≠ .unit → R s ts t → ts ≠ [] ∧ t.span = hull ts

/-- The children in a row stand one after another. -/
theorem inOrder (row : Row R ps ts own cs) (hR : Covering R)
    (hps : ∀ s ∈ Part.children ps, s ≠ .unit) (h : s.InOrder a b (ts.map Token.span)) :
    s.InOrder a b (cs.map Tree.span) := by
  induction row generalizing a with
  | nil => exact h
  | word _ _ ih => exact (ih hps h.2.2).widen (h.1.trans h.2.1)
  | own _ _ ih => exact (ih hps h.2.2).widen (h.1.trans h.2.1)
  | child here _ ih =>
      obtain ⟨hs, hps⟩ := List.forall_mem_cons.mp hps
      obtain ⟨hnonempty, hspan⟩ := hR _ _ _ hs here
      obtain ⟨hbefore, hhere, h⟩ := h.cut_hull hnonempty
      rw [List.map_cons, hspan]
      exact ⟨hbefore, hhere.range, ih hps h⟩

/-- A row of children has no token of its own, and a child for each symbol. -/
theorem children_inv {ss : List Symbol} (row : Row R (ss.map Part.child) ts own cs) :
    own = none ∧ cs.length = ss.length := by
  induction ss generalizing ts own cs with
  | nil =>
      obtain ⟨rfl, rfl, rfl⟩ := row.nil_inv
      exact ⟨rfl, rfl⟩
  | cons s ss ih =>
      obtain ⟨us, vs, c, ds, rfl, rfl, -, rest⟩ := row.child_inv
      obtain ⟨rfl, hlength⟩ := ih rest
      exact ⟨rfl, congrArg Nat.succ hlength⟩

/-- The own token stands in a row after the children that the phrase has before it. -/
theorem inOrder_own {ss : List Symbol} {l : Lexeme}
    (row : Row R (ss.map Part.child ++ .own l :: qs) ts own cs) (hR : Covering R)
    (hps : ∀ s ∈ Part.children (ss.map Part.child ++ .own l :: qs), s ≠ .unit)
    (h : s.InOrder a b (ts.map Token.span)) :
    ∃ t ∈ ts, own = some t.span ∧ t.lexeme = l ∧
      s.InOrder a b ((cs.take ss.length).map Tree.span ++
        t.span :: (cs.drop ss.length).map Tree.span) := by
  rw [Part.children_append, List.forall_mem_append] at hps
  obtain ⟨us, vs, _, _, ls, rs, rfl, rfl, rfl, left, right⟩ := row.append_inv
  obtain ⟨t, ws, own', rfl, rfl, is, right⟩ := right.own_inv
  obtain ⟨rfl, hlength⟩ := left.children_inv
  refine ⟨t, List.mem_append_right us List.mem_cons_self, rfl, is, ?_⟩
  rw [← hlength, List.take_left, List.drop_left]
  rw [List.map_append, List.map_cons, Text.InOrder.middle_iff] at h
  exact Text.InOrder.middle_iff.mpr
    ⟨left.inOrder hR hps.1 h.1, h.2.1, right.inOrder hR hps.2 h.2.2⟩

/-- The children in a row have a property that trees have if their tokens stand in the text. -/
theorem forall_standing {P : Tree → Prop} (row : Row R ps ts own cs) (hR : Covering R)
    (hP : ∀ sym ts t, sym ≠ .unit → R sym ts t → ∀ {a b}, s.InOrder a b (ts.map Token.span) →
      (∀ t ∈ ts, t.Stands s) → P t)
    (hps : ∀ s ∈ Part.children ps, s ≠ .unit) (h : s.InOrder a b (ts.map Token.span))
    (hstands : ∀ t ∈ ts, t.Stands s) : ∀ c ∈ cs, P c := by
  induction row generalizing a with
  | nil => simp
  | word _ _ ih => exact ih hps h.2.2 (List.forall_mem_cons.mp hstands).2
  | own _ _ ih => exact ih hps h.2.2 (List.forall_mem_cons.mp hstands).2
  | child here _ ih =>
      obtain ⟨hs, hps⟩ := List.forall_mem_cons.mp hps
      obtain ⟨hhere, hrest⟩ := List.forall_mem_append.mp hstands
      obtain ⟨-, hinside, hafter⟩ := h.cut_hull (hR _ _ _ hs here).1
      exact List.forall_mem_cons.mpr
        ⟨hP _ _ _ hs here hinside hhere, ih hps hafter hrest⟩

end Row

/-- The symbol of a binary operator is its mark. -/
theorem BinaryOp.symbol_toList (op : BinaryOp) : op.symbol.toList = op.mark.characters := by
  cases op <;> rfl

/-- The symbol of an assignment operator is its mark. -/
theorem AssignOp.symbol_toList (op : AssignOp) : op.symbol.toList = op.mark.characters := by
  cases op <;> rfl

/-- The symbol of a unary operator is its mark. -/
theorem UnaryOp.symbol_toList (op : UnaryOp) : op.symbol.toList = op.mark.characters := by
  cases op <;> rfl

/-- A kind that prints a token has its own word in its phrase, spelled as the token prints. -/
theorem Rule.exists_own {s : Symbol} {k : Kind} {ss : List Symbol} (rule : Rule s k ss)
    {text : String} (htext : k.tokenText? = some text) : ∃ (before : List Symbol) (l : Lexeme)
      (after : List (Part Symbol)), k.phrase ss = before.map Part.child ++ .own l :: after ∧
        before.length = k.leading ∧ l.text = text.toList := by
  cases rule with
  | assignment op =>
      obtain rfl := Option.some.inj htext
      exact ⟨[.expression 1], _, _, rfl, rfl, op.symbol_toList.symm⟩
  | binary op _ =>
      obtain rfl := Option.some.inj htext
      exact ⟨[.expression op.precedence], _, _, rfl, rfl, op.symbol_toList.symm⟩
  | prefixUnary op _ =>
      obtain rfl := Option.some.inj htext
      exact ⟨[], _, _, rfl, rfl, op.symbol_toList.symm⟩
  | @postfixUnary _ op _ _ =>
      obtain rfl := Option.some.inj htext
      exact ⟨[.expression 8], _, _, rfl, rfl, op.symbol_toList.symm⟩
  | identifier name _ =>
      obtain rfl := Option.some.inj htext
      exact ⟨[], _, _, rfl, rfl, rfl⟩
  | literal value _ =>
      obtain rfl := Option.some.inj htext
      exact ⟨[], _, _, rfl, rfl, rfl⟩
  | _ => cases htext

/-- A node lies over a text if its tokens stand in it, within the extent of the node. -/
theorem Rule.laid {sym : Symbol} {ss : List Symbol} {s : Text} {d : Node}
    {R : Symbol → List Token → Tree → Prop} {ts : List Token} {cs : List Tree}
    (rule : Rule sym d.kind ss) (row : Row R (d.kind.phrase ss) ts d.token cs)
    (hR : Row.Covering R) (read : d.synthetic = false) (bare : d.trailing = none)
    (h : s.InOrder d.span.start d.span.stop (ts.map Token.span)) (hstands : ∀ t ∈ ts, t.Stands s)
    (children : ∀ c ∈ cs, Laid s c) : Laid s (.node d cs) := by
  have hss : ∀ s ∈ Part.children (d.kind.phrase ss), s ≠ .unit := by
    rw [rule.children rfl]
    exact rule.ne_unit
  refine .node read bare (row.inOrder hR hss h) (fun text htext => ?_) children
  obtain ⟨before, l, after, hphrase, hlength, hspelled⟩ := rule.exists_own htext
  rw [hphrase] at row hss
  obtain ⟨t, ht, htoken, is, horder⟩ := row.inOrder_own hR hss h
  refine ⟨t.span, htoken, (hstands t ht).nonempty, ?_, hlength ▸ horder⟩
  rw [(hstands t ht).spelled, ← hspelled, ← is]
  rfl

/-- **A derived tree lies over the text** in which its tokens stand. -/
theorem Derives.laid {s : Text} {sym : Symbol} {ts : List Token} {t : Tree} (h : Derives sym ts t)
    (hsym : sym ≠ .unit) {a b : Nat} (horder : s.InOrder a b (ts.map Token.span))
    (hstands : ∀ t ∈ ts, t.Stands s) : Laid s t := by
  revert hsym a b horder hstands
  refine h.inductionOn (motive := fun sym ts t => sym ≠ .unit → ∀ {a b : Nat},
    s.InOrder a b (ts.map Token.span) → (∀ t ∈ ts, t.Stands s) → Laid s t) ?_
  intro sym k ss ts own cs rule row hsym a b horder hstands
  have hR : Row.Covering fun sym ts t => Derives sym ts t ∧ (sym ≠ .unit → ∀ {a b : Nat},
      s.InOrder a b (ts.map Token.span) → (∀ t ∈ ts, t.Stands s) → Laid s t) :=
    fun sym ts t hsym h => ⟨h.1.ne_nil hsym, h.1.span_eq⟩
  have hts : ts ≠ [] := (Derives.node rule (row.mono fun _ _ _ => And.left)).ne_nil hsym
  rw [← List.append_nil ts] at horder
  obtain ⟨-, hinside, -⟩ := horder.cut_hull hts
  refine rule.laid (d := ⟨k, hull ts, own, false, none⟩) row hR rfl rfl hinside hstands ?_
  refine row.forall_standing hR (fun sym ts t hsym h => h.2 hsym) ?_ hinside hstands
  rw [rule.children rfl]
  exact rule.ne_unit

/-- **The tree of a document lies over its source**, and covers it. -/
theorem laid_of_parse {source : Text} {d : Document} (h : parse source = .ok d) :
    d.source.text = source ∧ Laid source d.tree ∧ d.tree.span = ⟨0, Text.width source⟩ := by
  obtain ⟨ts, e, ss, cs, hscans, -, hspelled, rule, row, htree⟩ := exists_row_of_parse h
  obtain ⟨horder, hstands⟩ := hscans.inOrder (List.nil_append source).symm rfl
  have hsource : d.source.text = source := by
    rw [(parse_eq_ok.mp h).1, Source.text_ofText]
  have hts : ∀ t ∈ ts, t.Stands source := fun t ht =>
    hstands t (List.mem_append_left _ ht) (hspelled t ht).ne_end
  rw [List.map_append] at horder
  refine ⟨hsource, ?_, by rw [htree]; rfl⟩
  rw [htree]
  have hR : Row.Covering Derives := fun sym ts t hsym h => ⟨h.ne_nil hsym, h.span_eq⟩
  refine rule.laid (d := ⟨.compilationUnit, ⟨0, Text.width source⟩, none, false, none⟩) row hR rfl
    rfl horder.left hts ?_
  refine row.forall_standing hR (fun sym ts t hsym h => h.laid hsym) ?_ horder.left hts
  rw [rule.children rfl]
  exact rule.ne_unit

/-- **Printing is lossless.** A document prints as its source, and every node as the part of the
source that it covers, byte for byte. -/
theorem render_eq_source {source : Text} {d : Document} (h : parse source = .ok d) :
    d.render = source ∧ ∀ id t, d.subtree? id = some t →
      d.renderAt id = Text.slice source t.span.start t.span.stop ∧
        ∃ before after, source = before ++ (d.renderAt id ++ after) ∧
          Text.width before = t.span.start ∧
            Text.width before + Text.width (d.renderAt id) = t.span.stop := by
  obtain ⟨rfl, hlaid, hspan⟩ := laid_of_parse h
  refine ⟨?_, fun id t ht => ?_⟩
  · rw [Document.render, hlaid.render_eq, hspan, Text.slice_all]
  · have hhere : Laid d.source.text t := hlaid.of_mem_subtrees t (List.mem_of_getElem? ht)
    have hprint : d.renderAt id = Text.slice d.source.text t.span.start t.span.stop := by
      rw [Document.renderAt, ht]
      exact hhere.render_eq
    rw [hprint]
    exact ⟨rfl, hhere.range.exists_slice⟩

/-- Comments, blanks and missing blanks stay as they are. -/
theorem render_eq_source_trivia : ∃ d,
    parse "class A\t\x7b int x=1/*one*/- -2 ; // end\n\x7d ".toList = .ok d ∧
      d.render = "class A\t\x7b int x=1/*one*/- -2 ; // end\n\x7d ".toList := by
  have hread : (parse "class A\t\x7b int x=1/*one*/- -2 ; // end\n\x7d ".toList).toOption.any
      (fun _ => true) = true := by
    decide +kernel
  obtain ⟨d, hd, -⟩ := exists_document_of_any hread
  exact ⟨d, hd, (render_eq_source hd).1⟩

end SharpMutants
