import SharpMutants.Proofs.Dataflow.Paths
import SharpMutants.Proofs.Mutation.Proposals
import SharpMutants.Proofs.Neighbours

/-!
# Mutation keeps trees grammatical

What the mutators make of a node conforms to the symbol under which the node stands
(`Rewrite.OfNode.conforms`): a semicolon is a statement wherever a statement may stand,
an operator of the same class takes the operands of the old one, and new parentheses
make up for an operator that binds more loosely than its place asks.  A variable that
is put in the place of another is one that the method defines, so it is spelled as a
name.  Swapping a node for one that conforms to the same symbol keeps a tree
grammatical (`Conforms.exists_symbol`), so a mutant of a grammatical tree is
grammatical: `Rewrite.OfNode.grammatical`.
-/

namespace SharpMutants

/-! ## Names -/

/-- A name that may stand in a source. -/
def SpellsName (name : String) : Prop := (Lexeme.name name.toList).WellSpelled

namespace Conforms

variable {s : Symbol} {t u : Tree} {name : String}

/-- Identifiers and declared variables are spelled as names. -/
theorem spellsName (h : Conforms s t)
    (hkind : t.kind = .identifier name ∨ t.kind = .variableDeclarator name) : SpellsName name := by
  obtain @⟨_, d, ss, cs, rule, spelled, -⟩ := h
  change d.kind = _ ∨ d.kind = _ at hkind
  refine spelled _ ?_
  rcases hkind with hkind | hkind
  · rw [hkind]
    exact List.mem_cons_self
  · rw [hkind]
    cases ss <;> exact List.mem_cons_self

/-- The children of a conforming tree conform. -/
theorem of_mem_children (h : Conforms s t) (hu : u ∈ t.children) : ∃ s', Conforms s' u := by
  obtain ⟨d, cs⟩ := t
  refine h.of_mem_subtrees ?_
  rw [Tree.subtrees_node]
  refine List.mem_cons_of_mem _ (Tree.mem_subtreesOf.mpr ⟨u, hu, ?_⟩)
  exact List.mem_of_getElem? (Tree.getElem?_subtrees_zero u)

/-- The name of a conforming tree may stand in a source. -/
theorem spellsName_of_nameOf? (h : Conforms s t) (hname : Variables.nameOf? t = some name) :
    SpellsName name := by
  refine h.inductionOn (motive := fun _ t => Variables.nameOf? t = some name → SpellsName name) ?_ hname
  intro s d ss cs rule spelled children hname
  unfold Variables.nameOf? at hname
  split at hname
  · obtain ⟨_, _, ⟨-, ih⟩, -, -⟩ := List.forall₂_cons_right_iff.mp children
    exact ih hname
  · obtain rfl := Option.some.inj hname
    have hnode := Conforms.node rule spelled (children.imp fun _ _ => And.left)
    exact hnode.spellsName (.inl ‹d.kind = .identifier _›)
  · cases hname

/-- **The variables that a step defines** are spelled as names. -/
theorem spellsName_of_mem_definitions (h : Conforms s t) {step : Nat} {x : Fact}
    (hx : x ∈ Variables.definitions step t) : SpellsName x.name := by
  rw [Variables.definitions] at hx
  split at hx
  · rename_i site assignment hfirst
    split at hx
    · rename_i name hassigned
      obtain ⟨target, htarget, hname⟩ := Option.bind_eq_some_iff.mp hassigned
      rw [FactSet.mem_ofList, List.mem_singleton] at hx
      subst hx
      obtain ⟨⟨u, n⟩, hu, hfound⟩ := List.exists_of_findSome?_eq_some hfirst
      have hassignment : u = assignment := by
        dsimp only at hfound
        split at hfound
        · exact (Prod.mk.inj (Option.some.inj hfound)).2
        · cases hfound
      subst hassignment
      obtain ⟨s₁, h₁⟩ := h.of_mem_subtrees (List.fst_mem_of_mem_zipIdx hu)
      obtain ⟨s₂, h₂⟩ := h₁.of_mem_children (List.mem_of_head? htarget)
      exact h₂.spellsName_of_nameOf? hname
    · exact absurd hx FactSet.not_mem_empty
  · split at hx
    · rename_i declaration hdeclaration
      rw [FactSet.mem_ofList] at hx
      obtain ⟨name, hname, rfl⟩ := List.mem_map.mp hx
      obtain ⟨c, hc, hkind⟩ := List.mem_filterMap.mp hname
      have hdeclares : ∃ s', Conforms s' declaration := by
        rw [Variables.declaration?] at hdeclaration
        split at hdeclaration
        · rename_i hchildren
          obtain ⟨-, rfl⟩ := Prod.mk.inj (Option.some.inj hdeclaration)
          exact h.of_mem_children (by rw [hchildren]; exact List.mem_cons_self)
        · obtain ⟨-, rfl⟩ := Prod.mk.inj (Option.some.inj hdeclaration)
          exact ⟨s, h⟩
        · cases hdeclaration
      obtain ⟨s₁, h₁⟩ := hdeclares
      obtain ⟨s₂, h₂⟩ := h₁.of_mem_children hc
      split at hkind
      · rename_i hdeclarator
        cases hkind
        exact h₂.spellsName (.inr hdeclarator)
      · cases hkind
    · exact absurd hx FactSet.not_mem_empty

end Conforms

namespace MethodFlow

variable {a : Arena} {conditionUses : Bool} {m id : Nat} {flow : MethodFlow} {name : String}

/-- An index has identifiers of some steps only. -/
def IndexesOnly (steps : List Nat) (index : Table UseSite) : Prop :=
  ∀ (id : Nat) (u : UseSite), index[id]? = some u → u.step ∈ steps

/-- The identifiers of the index are in steps of the graph. -/
theorem indexesOnly_useIndex (a : Arena) (g : FlowGraph) : IndexesOnly g.nodes (useIndex a g) := by
  refine List.foldlRecOn (motive := IndexesOnly g.nodes) _ _ (by simp [IndexesOnly])
    fun index hindex step hstep => ?_
  split
  · refine List.foldlRecOn (motive := IndexesOnly g.nodes) _ _ hindex
      fun index hindex f _ id u hu => ?_
    rw [Std.TreeMap.getElem?_insert] at hu
    split at hu
    · cases hu
      exact hstep
    · exact hindex id u hu
  · exact hindex

/-- **A variable whose definitions reach a node** is defined by a step. -/
theorem exists_defines (h : analyze a conditionUses m = .ok flow) (hclosed : flow.graph.Closed)
    (hreaches : flow.Reaches id name) : ∃ step, a.Defines step name := by
  have hanalysis := isAnalysis h
  obtain ⟨facts, hfacts, hname⟩ := hreaches
  rw [reachingDefinitions] at hfacts
  split at hfacts
  · rename_i found
    cases hfacts
    obtain ⟨u, hu, hinto⟩ := Option.bind_eq_some_iff.mp found
    rw [hanalysis.uses] at hu
    obtain ⟨into, hinto', hlinked⟩ :=
      hanalysis.exists_reachingIn? hclosed (indexesOnly_useIndex a _ _ _ hu)
    obtain rfl := Option.some.inj (hinto'.symm.trans hinto)
    obtain ⟨x, hx, rfl⟩ := List.mem_map.mp (FactSet.mem_ofList.mp hname)
    obtain ⟨step, hdefined, -⟩ := (hlinked x).mp hx
    exact ⟨step, x, hdefined, rfl⟩
  · cases hfacts

end MethodFlow

/-- The graph of a method of a grammatical tree is closed. -/
theorem Tree.Grammatical.closed_of_analyze {t : Tree} (ht : t.Grammatical) {conditionUses : Bool}
    {m : Nat} {flow : MethodFlow} (h : MethodFlow.analyze t.arena conditionUses m = .ok flow) :
    flow.graph.Closed := by
  have hgraph := (MethodFlow.isAnalysis h).graph
  have hm : m ∈ t.methods := by
    rw [Arena.methodGraph, Arena.subtree?_arena] at hgraph
    split at hgraph
    · rename_i s hs
      split at hgraph
      · rename_i hmethod _
        exact Tree.mem_methods.mpr ⟨s, hs, hmethod⟩
      · cases hgraph
    · cases hgraph
  obtain ⟨body, _, hgraph', hbody⟩ := ht.exists_methodGraph hm
  rw [Except.ok.inj (hgraph.symm.trans hgraph')]
  exact hbody.closed_graph

/-- **The variables known at a node** of a grammatical tree are spelled as names. -/
theorem MutationPlan.Known.spellsName {p : MutationPlan} {t : Tree} {id : Nat} {name : String}
    (h : p.Known t.arena id name) (ht : t.Grammatical) : SpellsName name := by
  obtain ⟨flow, ⟨m, hflow⟩, hreaches⟩ := h
  have hclosed := ht.closed_of_analyze hflow
  obtain ⟨step, x, hx, rfl⟩ := MethodFlow.exists_defines hflow hclosed hreaches
  rw [Arena.definitionsAt, Arena.subtree?_arena] at hx
  split at hx
  · rename_i s hs
    obtain ⟨sym, hconforms⟩ := ht.of_mem_subtrees (List.mem_of_getElem? hs)
    exact hconforms.spellsName_of_mem_definitions hx
  · exact absurd hx FactSet.not_mem_empty

/-! ## Symbols and places -/

namespace Conforms

variable {s : Symbol} {t new : Tree} {n level q : Nat}

/-- An expression conforms to any level that it reaches. -/
theorem at_level (h : Conforms (.expression level) t) (hq : q ≤ t.kind.precedence) :
    Conforms (.expression q) t := by
  obtain @⟨_, d, ss, cs, rule, spelled, children⟩ := h
  change q ≤ d.kind.precedence at hq
  refine .node ?_ spelled children
  generalize d.kind = k at rule hq
  cases rule with
  | assignment op =>
      obtain rfl := Nat.le_zero.mp hq
      exact .assignment op
  | binary op _ => exact .binary op hq
  | prefixUnary op _ => exact .prefixUnary op hq
  | postfixUnary step _ => exact .postfixUnary step hq
  | identifier name _ => exact .identifier name hq
  | literal value _ => exact .literal value hq
  | parenthesized _ => exact .parenthesized hq
  | invocation callee args _ => exact .invocation callee args hq

/-- One of the trees that are related to some symbols may be replaced by another one that is
related to the same. -/
theorem forall₂_middle {R : Symbol → Tree → Prop} {ss : List Symbol} {ls rs : List Tree} {c : Tree}
    (h : List.Forall₂ R ss (ls ++ c :: rs)) : ∃ ss₁ s' ss₂, ss = ss₁ ++ s' :: ss₂ ∧
      ss₁.length = ls.length ∧ R s' c ∧ ∀ new, R s' new → List.Forall₂ R ss (ls ++ new :: rs) := by
  induction ls generalizing ss with
  | nil =>
      obtain ⟨s', ss, hhere, hrest, rfl⟩ := List.forall₂_cons_right_iff.mp h
      exact ⟨[], s', ss, rfl, rfl, hhere, fun new hnew => .cons hnew hrest⟩
  | cons b ls ih =>
      obtain ⟨s₀, ss, hfirst, hmore, rfl⟩ := List.forall₂_cons_right_iff.mp h
      obtain ⟨ss₁, s', ss₂, rfl, hlength, hhere, hnew⟩ := ih hmore
      exact ⟨s₀ :: ss₁, s', ss₂, rfl, congrArg Nat.succ hlength, hhere,
        fun new h => .cons hfirst (hnew new h)⟩

/-- A child of a conforming node conforms to a symbol of the rule, and any tree that conforms to
that may stand in its place. -/
theorem exists_rule {d : Node} {ls rs : List Tree} {c : Tree}
    (h : Conforms s (.node d (ls ++ c :: rs))) : ∃ ss₁ s' ss₂, Rule s d.kind (ss₁ ++ s' :: ss₂) ∧
      ss₁.length = ls.length ∧ Conforms s' c ∧
        ∀ new, Conforms s' new → Conforms s (.node d (ls ++ new :: rs)) := by
  obtain @⟨_, _, ss, _, rule, spelled, children⟩ := h
  obtain ⟨ss₁, s', ss₂, rfl, hlength, hhere, hnew⟩ := forall₂_middle children
  exact ⟨ss₁, s', ss₂, rule, hlength, hhere, fun new h => .node rule spelled (hnew new h)⟩

end Conforms

namespace Rewrite

variable {t s : Tree} {n : Nat}

/-- A binary expression that needs no parentheses in a place reaches the level of a symbol. -/
def Place.Allows (place : Option Place) (s : Symbol) : Prop :=
  ∀ level precedence, s = .expression level → 1 ≤ precedence →
    (place.any fun p => p.needsParentheses precedence) = false → level ≤ precedence

/-- The place of a child says what its parent is and whether it is the first child. -/
theorem place?_child {q : Nat} {d : Node} {ls rs : List Tree}
    (hparent : t.arena.parent? n = some q) (h : Tree.ChildOf t n s q d ls rs) :
    place? t.arena n = some ⟨d.kind, ls.isEmpty⟩ := by
  have hfirst : t.arena.isChildAt q 0 n = ls.isEmpty := by
    rw [Arena.isChildAt, Arena.childrenOf_arena h.parent, h.number, Tree.numbersFrom]
    cases ls with
    | nil => simp [Tree.children, Tree.numberFrom_cons, Tree.sizes]
    | cons b ls =>
        have := Steps.size_pos b
        simp [Tree.children, Tree.numberFrom_cons, Tree.sizes]
        omega
  rw [place?, hparent, Option.bind_eq_bind, Option.bind_some, Arena.kind?_arena h.parent, hfirst]
  rfl

end Rewrite

/-- A place for an expression asks for parentheses around what binds too loosely for it. -/
theorem Rule.allows {s s' : Symbol} {k : Kind} {ss₁ ss₂ : List Symbol}
    (rule : Rule s k (ss₁ ++ s' :: ss₂)) : Rewrite.Place.Allows (some ⟨k, ss₁.isEmpty⟩) s' := by
  rintro level precedence rfl hpos hneeds
  generalize hall : ss₁ ++ .expression level :: ss₂ = all at rule
  have hmem : .expression level ∈ all := hall ▸ List.mem_append_right _ List.mem_cons_self
  cases rule with
  | assignment op => simp at hmem; omega
  | binary op reached =>
      -- The first operand reaches the level of the operator, and the second one the next.
      rcases ss₁ with _ | ⟨s₁, _ | ⟨s₂, ss₁⟩⟩
      · obtain ⟨h, -⟩ := List.cons.inj hall
        obtain rfl := Symbol.expression.inj h
        simpa [Rewrite.Place.needsParentheses] using hneeds
      · obtain ⟨-, h⟩ := List.cons.inj hall
        obtain rfl := Symbol.expression.inj (List.cons.inj h).1
        simp [Rewrite.Place.needsParentheses] at hneeds
        omega
      · simp at hall
  | prefixUnary op reached => cases hneeds
  | postfixUnary step reached => cases hneeds
  | _ => simp [List.mem_replicate] at hmem <;> omega

/-- **A node of a conforming tree** conforms to a symbol that its place allows, and any tree that
conforms to that may stand in its place. -/
theorem Conforms.exists_symbol {s : Symbol} {t old : Tree} {n : Nat} (h : Conforms s t)
    (hs : s = .unit) (hold : t.subtrees[n]? = some old) :
    ∃ s', Conforms s' old ∧ Rewrite.Place.Allows (Rewrite.place? t.arena n) s' ∧
      ∀ new, Conforms s' new → Conforms s (Tree.replaceAt new n t) := by
  induction n using Nat.strong_induction_on generalizing old with
  | _ n ih =>
      rcases Arena.parent?_arena hold with ⟨rfl, -⟩ | ⟨q, d, ls, rs, hparent, hchild⟩
      · rw [Tree.getElem?_subtrees_zero, Option.some.injEq] at hold
        subst hold hs
        exact ⟨.unit, h, nofun, fun new hnew => by rwa [Tree.replaceAt_zero]⟩
      · have hlt : q < n := by
          have := hchild.number
          omega
        obtain ⟨s₁, hnode, -, hcontext⟩ := ih q hlt hchild.parent
        obtain ⟨ss₁, s', ss₂, rule, hlength, hhere, hnew⟩ := hnode.exists_rule
        refine ⟨s', hhere, ?_, fun new h => ?_⟩
        · have hempty : ls.isEmpty = ss₁.isEmpty := by
            rw [Bool.eq_iff_iff, List.isEmpty_iff_length_eq_zero, List.isEmpty_iff_length_eq_zero,
              hlength]
          rw [Rewrite.place?_child hparent hchild, hempty]
          exact rule.allows
        · rw [hchild.replace]
          exact hcontext _ (hnew new h)

/-! ## Rewritten nodes -/

namespace Conforms

variable {s : Symbol} {t left right : Tree} {level : Nat}

/-- Parentheses make an operand of any expression. -/
theorem parenthesized {d : Node} (hkind : d.kind = .parenthesized) (h : Conforms (.expression 0) t)
    (hlevel : level ≤ 9) : Conforms (.expression level) (.node d [t]) := by
  refine .node (hkind ▸ .parenthesized hlevel) ?_ (.cons h .nil)
  rw [hkind]
  intro l hl
  have hmarks : l ∈ [.mark .openParen, .mark .closeParen] := hl
  simp only [List.mem_cons, List.not_mem_nil, or_false] at hmarks
  rcases hmarks with rfl | rfl <;> exact Lexeme.wellSpelled_mark _

/-- A binary expression with operands of its levels conforms at its own level and below. -/
theorem binary {d : Node} {op : BinaryOp} (hkind : d.kind = .binary op)
    (hleft : Conforms (.expression op.precedence) left)
    (hright : Conforms (.expression (op.precedence + 1)) right) (hlevel : level ≤ op.precedence) :
    Conforms (.expression level) (.node d [left, right]) := by
  refine .node (hkind ▸ .binary op hlevel) ?_ (.cons hleft (.cons hright .nil))
  rw [hkind]
  intro l hl
  obtain rfl := List.mem_singleton.mp hl
  exact Lexeme.wellSpelled_mark _

/-- An operand under an operator binds as tightly as that asks. -/
theorem operand {p q : Nat} {first : Bool} (h : Conforms (.expression level) t) (hq : q ≤ 9)
    (hbare : (t.kind.precedence < p || (!first && t.kind.precedence == p)) = false →
      q ≤ t.kind.precedence) (anchor : Span) :
    Conforms (.expression q) ((Rewrite.operand p first t).toTree anchor) := by
  rw [Rewrite.toTree_operand]
  split
  · exact .parenthesized rfl (h.at_level (Nat.zero_le _)) hq
  · rename_i hneeds
    exact h.at_level (hbare (Bool.eq_false_iff.mpr hneeds))

end Conforms

namespace Rewrite

/-- A binary expression with another operator is an expression as tight as its place asks. -/
theorem conforms_withOperator {s : Symbol} {t : Tree} {old new : BinaryOp} {place : Option Place}
    (h : Conforms s t) (hkind : t.kind = .binary old) (hplace : Place.Allows place s)
    (marker : Option String) :
    Conforms s (((withOperator t place new).withTrailing marker).toTree t.span) := by
  obtain ⟨level, left, right, rfl, hlevel, hchildren, hleft, hright⟩ := h.exists_operands hkind
  have hnew : 1 ≤ new.precedence ∧ new.precedence ≤ 6 := by cases new <;> decide
  have hold : old.precedence ≤ 6 := by cases old <;> decide
  have hmade : ∀ {level trailing}, level ≤ new.precedence → Conforms (.expression level)
      ((((Graft.retoken t (.binary new)).withChildren
        (operands new.precedence [left, right])).withTrailing trailing).toTree t.span) := by
    intro level trailing hreached
    have htree := toTree_operator t left right new trailing t.span
    refine (congrArg (Conforms (.expression level)) htree).mpr ?_
    refine .binary rfl (hleft.operand (by omega) (fun hbare => ?_) _)
      (hright.operand (by omega) (fun hbare => ?_) _) hreached
    · simpa using hbare
    · simp at hbare
      omega
  rw [withOperator, hchildren]
  split
  · rw [toTree_parenthesize t.span rfl]
    exact .parenthesized rfl (hmade (Nat.zero_le _)) (by omega)
  · rename_i hbare
    rw [Bool.not_eq_true] at hbare
    exact hmade (hplace _ _ rfl hnew.1 hbare)

/-- What may be deleted is a statement. -/
theorem exists_statement {s : Symbol} {t : Tree} (h : Conforms s t)
    (hdeletable : Mutator.isDeletable t.kind = true) : ∃ closed, s = .statement closed := by
  obtain @⟨_, d, ss, cs, rule, -, -⟩ := h
  change Mutator.isDeletable d.kind = true at hdeletable
  generalize d.kind = k at rule hdeletable
  cases rule <;> first | exact ⟨_, rfl⟩ | cases hdeletable

/-- **What a mutator makes of a node** conforms to the symbol of the node. -/
theorem OfNode.conforms {place : Option Place} {known : String → Prop} {s : Symbol} {t : Tree}
    {m : Mutator} {r : Rewrite} (h : OfNode place known t m r) (ht : Conforms s t)
    (hplace : Place.Allows place s) (hknown : ∀ name, known name → SpellsName name)
    (marker : Option String) : Conforms s ((r.graft.withTrailing marker).toTree t.span) := by
  have hretoken : ∀ {kind : Kind},
      (∀ ss, Rule s t.kind ss → Rule s kind ss ∧ Part.Spelled (kind.phrase ss)) →
        Conforms s (((Graft.retoken t kind).withTrailing marker).toTree t.span) := by
    intro kind hrule
    rw [toTree_retoken]
    obtain @⟨_, d, ss, cs, rule, -, children⟩ := ht
    exact .node (hrule ss rule).1 (hrule ss rule).2 children
  cases h with
  | binary hkind _ _ => exact conforms_withOperator ht hkind hplace marker
  | postfixStep hkind hflip =>
      obtain ⟨hstep, -⟩ := UnaryOp.flipped?_eq_some hflip
      refine hretoken fun ss rule => ?_
      rw [hkind] at rule
      cases rule with
      | postfixUnary _ reached =>
          refine ⟨.postfixUnary hstep reached, fun l hl => ?_⟩
          obtain rfl := List.mem_singleton.mp hl
          exact Lexeme.wellSpelled_mark _
  | prefixOperator hkind hstep hne =>
      refine hretoken fun ss rule => ?_
      rw [hkind] at rule
      cases rule with
      | prefixUnary _ reached =>
          refine ⟨.prefixUnary _ reached, fun l hl => ?_⟩
          obtain rfl := List.mem_singleton.mp hl
          exact Lexeme.wellSpelled_mark _
  | deletion hdeletable =>
      obtain ⟨closed, rfl⟩ := exists_statement ht hdeletable
      dsimp only
      rw [toTree_deletion]
      refine .node (.emptyStatement closed) (fun l hl => ?_) .nil
      obtain rfl := List.mem_singleton.mp hl
      exact Lexeme.wellSpelled_mark _
  | identifier hkind hnew hne =>
      refine hretoken fun ss rule => ?_
      rw [hkind] at rule
      cases rule with
      | identifier _ reached =>
          refine ⟨.identifier _ reached, fun l hl => ?_⟩
          obtain rfl := List.mem_singleton.mp hl
          exact hknown _ hnew

/-- **Rewriting a node of a grammatical tree** gives a grammatical tree. -/
theorem OfNode.grammatical {t old : Tree} {n : Nat} {p : MutationPlan} {m : Mutator} {r : Rewrite}
    (h : OfNode (place? t.arena n) (p.Known t.arena n) old m r) (ht : t.Grammatical)
    (hold : t.subtree? n = some old) (marker : Option String) :
    (Tree.replaceAt ((r.graft.withTrailing marker).toTree old.span) n t).Grammatical := by
  obtain ⟨s, hhere, hplace, hcontext⟩ := Conforms.exists_symbol ht rfl hold
  exact hcontext _ (h.conforms hhere hplace (fun name hname => hname.spellsName ht) marker)

end Rewrite

end SharpMutants
