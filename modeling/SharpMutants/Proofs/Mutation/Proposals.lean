import SharpMutants.Mutation.Mutant

/-!
# What mutants are made of

`Rewrite.OfNode place known t m r` lists the rewrites that the mutators make of a node:
what `rewrites` computes is in the list (`Mutator.ofNode_of_mem`).  Every mutant of a
document is made from a proposal for the subtree at a node of it, and names a variable
only if a definition of it reaches the node (`MutationPlan.exists_proposal`).
-/

namespace SharpMutants

namespace Rewrite

/-! ## Rewritten nodes -/

/-- Trees that are kept are the trees. -/
theorem toTrees_kept (anchor : Span) (cs : List Tree) :
    Graft.toTrees anchor (cs.map Graft.kept) = cs := by
  induction cs with
  | nil => rfl
  | cons c cs ih => rw [List.map_cons, Graft.toTrees, ih, Graft.toTree]

/-- A node with another kind, and a comment after it. -/
theorem toTree_retoken (t : Tree) (kind : Kind) (marker : Option String) :
    ((Graft.retoken t kind).withTrailing marker).toTree t.span =
      .node ⟨kind, t.span, t.root.token, false, marker⟩ t.children := by
  rw [Graft.retoken, Graft.withTrailing, Graft.toTree]
  simp [toTrees_kept]

/-- A semicolon takes the extent of the statement that it stands for. -/
theorem toTree_deletion (extent : Span) (marker : Option String) :
    ((Graft.synthetic .emptyStatement []).withTrailing marker).toTree extent =
      .node ⟨.emptyStatement, extent, none, true, marker⟩ [] := by
  rw [Graft.synthetic, Graft.withTrailing, Graft.toTree]
  simp [Graft.extentOf?, Graft.toTrees]

/-- New parentheses around a graft take its extent. -/
theorem toTree_parenthesize {g : Graft} (anchor : Span) {extent : Span}
    (h : g.extent? = some extent) (marker : Option String) : ((Graft.parenthesize g).withTrailing marker).toTree anchor =
      .node ⟨.parenthesized, extent, none, true, marker⟩ [g.toTree extent] := by
  have hextent : Graft.extentOf? [g] = some extent := by
    rw [Graft.extentOf?, h, Graft.extentOf?]
  rw [Graft.parenthesize, Graft.synthetic, Graft.withTrailing, Graft.toTree]
  simp [hextent, Graft.toTrees]

/-- A binary expression with another operator, and its operands as they stand under that. -/
theorem toTree_operator (t left right : Tree) (op : BinaryOp) (trailing : Option String)
    (anchor : Span) :
    (Graft.fresh (.binary op) (some t.span) t.root.token trailing
        (operands op.precedence [left, right])).toTree anchor =
      .node ⟨.binary op, t.span, t.root.token, false, trailing⟩
        [(operand op.precedence true left).toTree t.span,
          (operand op.precedence false right).toTree t.span] := by
  simp [Graft.toTree, Graft.toTrees, operands]

/-- An operand is the tree that it is made of, or new parentheses around it. -/
theorem toTree_operand (precedence : Nat) (first : Bool) (t : Tree) (anchor : Span) :
    (operand precedence first t).toTree anchor =
      if t.kind.precedence < precedence || (!first && t.kind.precedence == precedence) then
        .node ⟨.parenthesized, t.span, none, true, none⟩ [t]
      else t := by
  rw [operand]
  split
  · have hnew := toTree_parenthesize (g := .kept t) anchor rfl none
    rwa [Graft.toTree] at hnew
  · rw [Graft.toTree]

/-- The first operand needs parentheses if it binds more loosely than the operator. -/
theorem needs_first (precedence level : Nat) :
    (level < precedence || (!true && level == precedence)) = decide (level < precedence) := by
  simp

/-- The second operand needs parentheses also if it binds as tightly as the operator. -/
theorem needs_second (precedence level : Nat) :
    (level < precedence || (!false && level == precedence)) = decide (level ≤ precedence) := by
  rw [Bool.eq_iff_iff]
  simp [Nat.le_iff_lt_or_eq]

end Rewrite

/-! ## Proposals -/

/-- What the mutators make of a node in a place at which some variables are known. -/
inductive Rewrite.OfNode (place : Option Rewrite.Place) (known : String → Prop) (t : Tree) :
    Mutator → Rewrite → Prop
  | binary {old new : BinaryOp} : t.kind = .binary old → new ∈ BinaryOp.interchangeable →
      new ≠ old → OfNode place known t .binaryOperator
        ⟨Rewrite.withOperator t place new, Rewrite.swapSummary old.symbol new.symbol⟩
  | postfixStep {old new : UnaryOp} : t.kind = .postfixUnary old → old.flipped? = some new →
      OfNode place known t .postfixStep (.ofUnary t .postfixUnary old new)
  | prefixOperator {old new : UnaryOp} : t.kind = .prefixUnary old → new.isStep = true →
      new ≠ old → OfNode place known t .prefixOperator (.ofUnary t .prefixUnary old new)
  | deletion : Mutator.isDeletable t.kind = true → OfNode place known t .statementDeletion
      ⟨.synthetic .emptyStatement [], "delete " ++ t.kind.name⟩
  | identifier {old new : String} : t.kind = .identifier old → known new → new ≠ old →
      OfNode place known t .identifierReplacement
        ⟨.retoken t (.identifier new), Rewrite.swapSummary old new⟩

/-- A rewrite of a node is still one when more variables are known. -/
theorem Rewrite.OfNode.mono {place : Option Rewrite.Place} {known known' : String → Prop} {t : Tree}
    {m : Mutator} {r : Rewrite} (h : OfNode place known t m r)
    (hknown : ∀ name, known name → known' name) : OfNode place known' t m r := by
  cases h with
  | binary hkind hnew hne => exact .binary hkind hnew hne
  | postfixStep hkind hflip => exact .postfixStep hkind hflip
  | prefixOperator hkind hstep hne => exact .prefixOperator hkind hstep hne
  | deletion hdeletable => exact .deletion hdeletable
  | identifier hkind hnew hne => exact .identifier hkind (hknown _ hnew) hne

/-- The flip of a step is another one. -/
theorem UnaryOp.flipped?_eq_some {old new : UnaryOp} (h : old.flipped? = some new) :
    new.isStep = true ∧ new ≠ old := by
  cases old <;> cases h <;> simp [UnaryOp.isStep]

/-- A definition of a variable reaches the step of a node. -/
def MethodFlow.Reaches (flow : MethodFlow) (id : Nat) (name : String) : Prop :=
  ∃ facts, flow.reachingDefinitions id = .ok facts ∧ name ∈ facts.names.toList

/-- **The rewrites of a node** are those of the list. -/
theorem Mutator.ofNode_of_mem {m : Mutator} {a : Arena} {flow : Option MethodFlow} {id : Nat}
    {t : Tree} {rs : List Rewrite} {r : Rewrite} (h : m.rewrites a flow id t = .ok rs)
    (hr : r ∈ rs) :
    Rewrite.OfNode (Rewrite.place? a id) (fun name => ∃ f ∈ flow, f.Reaches id name) t m r := by
  unfold rewrites at h
  split at h
  · rename_i hkind
    cases h
    rw [binaryRewrites, List.mem_map] at hr
    obtain ⟨new, hnew, rfl⟩ := hr
    obtain ⟨hnew, hne⟩ := List.mem_filter.mp hnew
    exact .binary hkind hnew (by simpa using hne)
  · rename_i hkind
    split at h
    · rename_i hflip
      cases h
      obtain rfl := List.mem_singleton.mp hr
      exact .postfixStep hkind hflip
    · cases h
  · rename_i old hkind
    split at h
    · rename_i hflip
      cases h
      obtain rfl := List.mem_singleton.mp hr
      obtain ⟨hstep, hne⟩ := UnaryOp.flipped?_eq_some hflip
      exact .prefixOperator hkind hstep hne
    · rename_i hflip
      cases h
      have hold : old ≠ .increment ∧ old ≠ .decrement := by
        cases old <;> simp_all [UnaryOp.flipped?]
      rcases List.mem_cons.mp hr with rfl | hr
      · exact .prefixOperator hkind rfl hold.1.symm
      · obtain rfl := List.mem_singleton.mp hr
        exact .prefixOperator hkind rfl hold.2.symm
  · split at h
    · rename_i hdeletable
      cases h
      obtain rfl := List.mem_singleton.mp hr
      exact .deletion hdeletable
    · cases h
  · rename_i hkind
    split at h
    · rw [identifierRewrites] at h
      split at h
      · cases h
      · rename_i hfacts
        cases h
        obtain ⟨new, hnew, rfl⟩ := List.mem_map.mp hr
        obtain ⟨hknown, hne⟩ := List.mem_filter.mp hnew
        exact .identifier hkind ⟨_, rfl, _, hfacts, hknown⟩ (by simpa using hne)
    · cases h
  · cases h

namespace MutationPlan

variable {p : MutationPlan} {a : Arena} {d : Document}

/-- The proposals at a node are rewrites of that node by their mutators. -/
theorem of_mem_proposalsAt {flow : Option MethodFlow} {id : Nat} {t : Tree} {rs : List Proposal}
    (h : p.proposalsAt a flow id t = .ok rs) : ∀ r ∈ rs, r.target = id ∧ r.old = t ∧
      ∃ made, r.mutator.rewrites a flow r.target r.old = .ok made ∧ r.rewrite ∈ made := by
  rw [proposalsAt] at h
  split at h
  · cases h
    simp
  · rename_i m _
    cases hmade : m.rewrites a flow id t with
    | error e =>
        rw [hmade] at h
        cases h
    | ok made =>
        rw [hmade] at h
        cases h
        intro r hr
        obtain ⟨rewrite, hrewrite, rfl⟩ := List.mem_map.mp hr
        exact ⟨rfl, rfl, made, hmade, hrewrite⟩

/-- The data flow that is at hand is that of a method. -/
def Analyzed (p : MutationPlan) (a : Arena) (flow : Option MethodFlow) : Prop :=
  ∀ f ∈ flow, ∃ m, MethodFlow.analyze a p.conditionUses m = .ok f

/-- No data flow is that of a method. -/
theorem analyzed_none : p.Analyzed a none := by
  rintro f ⟨⟩

/-- Entering a node leaves data flow of a method at hand. -/
theorem Analyzed.enter {scope scope' : Option MethodScope} {id : Nat} {t : Tree}
    (hscope : p.Analyzed a (scope.map MethodScope.flow)) (h : p.enter a scope id t = .ok scope') :
    p.Analyzed a (scope'.map MethodScope.flow) := by
  rw [MutationPlan.enter] at h
  split at h
  · split at h
    · rename_i hflow
      cases h
      rintro _ ⟨⟩
      exact ⟨id, hflow⟩
    · cases h
  · cases h
    intro f hf
    obtain ⟨s, hs, rfl⟩ := Option.map_eq_some_iff.mp hf
    exact hscope _ (Option.map_eq_some_iff.mpr ⟨s, (Option.filter_eq_some_iff.mp hs).1, rfl⟩)

/-- A proposal is one of a mutator for a node of the list. -/
theorem exists_rewrites {scope : Option MethodScope} {nodes : List (Nat × Tree)}
    {rs : List Proposal} (hscope : p.Analyzed a (scope.map MethodScope.flow))
    (h : p.proposalsFrom a scope nodes = .ok rs) :
    ∀ r ∈ rs, (r.target, r.old) ∈ nodes ∧ ∃ flow made, p.Analyzed a flow ∧
      r.mutator.rewrites a flow r.target r.old = .ok made ∧ r.rewrite ∈ made := by
  induction nodes generalizing scope rs with
  | nil =>
      cases h
      simp
  | cons node nodes ih =>
      obtain ⟨id, t⟩ := node
      simp only [proposalsFrom, bind, Except.bind] at h
      split at h
      · cases h
      · rename_i scope' hentered
        have hscope' := hscope.enter hentered
        split at h
        · cases h
        · rename_i here hhere
          split at h
          · cases h
          · rename_i later hlater
            cases h
            refine List.forall_mem_append.mpr ⟨fun r hr => ?_, fun r hr => ?_⟩
            · obtain ⟨rfl, rfl, made, hmade⟩ := of_mem_proposalsAt hhere r hr
              exact ⟨List.mem_cons_self, _, made, hscope', hmade⟩
            · exact (ih hscope' hlater r hr).imp_left (List.mem_cons_of_mem _)

/-- Fresh proposals are proposals. -/
theorem mem_of_mem_fresh {original : List (Kind × Nat)} {seen : Shapes} {rs : List Proposal}
    {r : Proposal} (h : r ∈ p.fresh original seen rs) : r ∈ rs := by
  induction rs generalizing seen with
  | nil => exact h
  | cons first rs ih =>
      rw [fresh] at h
      split at h
      · rcases List.mem_cons.mp h with rfl | h
        · exact List.mem_cons_self
        · exact List.mem_cons_of_mem _ (ih h)
      · exact List.mem_cons_of_mem _ (ih h)

/-- A definition of a variable reaches a node in the data flow of some method. -/
def Known (p : MutationPlan) (a : Arena) (id : Nat) (name : String) : Prop :=
  ∃ f, (∃ m, MethodFlow.analyze a p.conditionUses m = .ok f) ∧ f.Reaches id name

/-- **Every mutant is made from a rewrite** of the subtree at its target. -/
theorem exists_proposal {ms : List Mutant} (h : p.mutants d = .ok ms) :
    ∀ m ∈ ms, ∃ r : Proposal, d.tree.subtree? r.target = some r.old ∧
      Rewrite.OfNode (Rewrite.place? d.arena r.target) (p.Known d.arena r.target) r.old r.mutator
        r.rewrite ∧ m = p.mutantOf d d.arena r := by
  cases hproposals : p.proposals d d.arena with
  | error e =>
      simp only [mutants, hproposals] at h
      cases h
  | ok rs =>
      simp only [mutants, hproposals] at h
      cases h
      intro m hm
      obtain ⟨r, hr, rfl⟩ := List.mem_map.mp hm
      obtain ⟨hnode, flow, made, hflow, hmade, hrewrite⟩ :=
        exists_rewrites analyzed_none hproposals r (mem_of_mem_fresh hr)
      refine ⟨r, ?_, (Mutator.ofNode_of_mem hmade hrewrite).mono ?_, rfl⟩
      rotate_left
      · rintro name ⟨f, hf, hreaches⟩
        exact ⟨f, hflow f hf, hreaches⟩
      obtain ⟨⟨s, n⟩, hs, heq⟩ := List.mem_map.mp hnode
      obtain ⟨rfl, rfl⟩ := Prod.mk.inj heq
      exact List.mem_zipIdx_iff_getElem?.mp hs

end MutationPlan

end SharpMutants
