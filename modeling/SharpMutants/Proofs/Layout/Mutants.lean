import Mathlib.Data.List.Forall2
import SharpMutants.Proofs.Layout.Findings
import SharpMutants.Mutation.Run

/-!
# Mutants do not depend on layout

The rewrites of a bare node are those of the node, laid bare (`Mutator.rewrites_bare`), and
they ask of the data flow for nothing but its core (`Mutator.rewrites_congr`).  So whatever
the comment that marks the rewritten nodes and the reading of conditions, the proposals for
a bare tree are those for the tree (`MutationPlan.proposalsFrom_bare`); and a proposal is
fresh or not by the shape that it gives (`MutationPlan.fresh_bare`).  Documents of one shape
therefore have the same mutants up to layout: `MutationPlan.mutants_alike`.
-/

namespace SharpMutants

/-! ## Grafts -/

theorem Tree.bare_bare (t : Tree) : t.bare.bare = t.bare := bare_eq_iff.mpr (shape_bare t)

namespace Graft

mutual

/-- A graft with nothing but the kinds of its nodes. -/
def bare : Graft → Graft
  | kept t => kept t.bare
  | fresh kind span _ _ children =>
    fresh kind (span.map fun _ => .nowhere) none none (bares children)

/-- Bare grafts. -/
def bares : List Graft → List Graft
  | [] => []
  | g :: gs => g.bare :: bares gs

end

theorem bares_eq (gs : List Graft) : bares gs = gs.map bare := by
  induction gs with
  | nil => rw [bares, List.map_nil]
  | cons g gs ih => rw [bares, ih, List.map_cons]

mutual

/-- The bare tree of a graft does not tell where it is put. -/
theorem bare_toTree : ∀ (g : Graft) (anchor anchor' : Span),
    (g.bare.toTree anchor).bare = (g.toTree anchor').bare
  | kept t, _, _ => by rw [bare, toTree, toTree, Tree.bare_bare]
  | fresh kind span token trailing children, _, _ => by
    rw [bare, toTree, toTree, Tree.bare_node, Tree.bare_node, map_bare_toTrees children]
    rfl

/-- The bare trees of grafts do not tell where they are put. -/
theorem map_bare_toTrees : ∀ (gs : List Graft) (anchor anchor' : Span),
    (toTrees anchor (bares gs)).map Tree.bare = (toTrees anchor' gs).map Tree.bare
  | [], _, _ => by rw [bares, toTrees, toTrees]
  | g :: gs, anchor, anchor' => by
    rw [bares, toTrees, toTrees, List.map_cons, List.map_cons, bare_toTree g anchor anchor',
      map_bare_toTrees gs anchor anchor']

end

/-- Keeping trees and making the grafts bare is keeping the bare trees. -/
theorem map_bare_kept (ts : List Tree) : (ts.map kept).map bare = (ts.map Tree.bare).map kept := by
  rw [List.map_map, List.map_map]
  rfl

theorem retoken_bare (t : Tree) (kind : Kind) : (retoken t kind).bare = retoken t.bare kind := by
  rw [retoken, bare, bares_eq, map_bare_kept, retoken, Tree.span_bare, Tree.root_bare,
    Tree.children_bare]
  rfl

/-- A comment behind a graft is layout. -/
theorem bare_withTrailing (text : Option String) (g : Graft) :
    (g.withTrailing text).bare = g.bare := by
  cases g with
  | kept t => rw [withTrailing]
  | fresh kind span token trailing children => rw [withTrailing, bare, bare]

end Graft

/-! ## Rewrites -/

namespace Rewrite

/-- A rewrite with nothing but the kinds of the nodes. -/
def bare (r : Rewrite) : Rewrite := { r with graft := r.graft.bare }

/-- The parentheses around an operand do not depend on layout. -/
theorem operand_bare (precedence : Nat) (first : Bool) (t : Tree) :
    (operand precedence first t).bare = operand precedence first t.bare := by
  rw [operand, operand, Tree.kind_bare]
  split
  · simp [Graft.parenthesize, Graft.synthetic, Graft.bare, Graft.bares]
  · rw [Graft.bare]

/-- The parentheses around operands do not depend on layout. -/
theorem operands_bare (precedence : Nat) (ts : List Tree) :
    (operands precedence ts).map Graft.bare = operands precedence (ts.map Tree.bare) := by
  cases ts with
  | nil => rfl
  | cons t ts =>
      rw [List.map_cons, operands, operands, List.map_cons, operand_bare, List.map_map,
        List.map_map]
      congr 2
      funext u
      exact operand_bare precedence false u

theorem place?_bare (a : Arena) (id : Nat) : place? a.bare id = place? a id := by
  simp only [place?, Arena.parent?_bare, Arena.kind?_bare, Arena.isChildAt_bare]

/-- The graft with a new operator does not depend on layout. -/
theorem withOperator_bare (t : Tree) (place : Option Place) (op : BinaryOp) :
    (withOperator t place op).bare = withOperator t.bare place op := by
  have hgraft : ((Graft.retoken t (.binary op)).withChildren
      (operands op.precedence t.children)).bare = (Graft.retoken t.bare (.binary op)).withChildren
        (operands op.precedence t.bare.children) := by
    rw [Tree.children_bare, ← operands_bare, ← Graft.retoken_bare]
    simp [Graft.retoken, Graft.withChildren, Graft.bare, Graft.bares_eq]
  rw [withOperator, withOperator, ← hgraft]
  split
  · simp [Graft.parenthesize, Graft.synthetic, Graft.bare, Graft.bares]
  · rfl

/-- The rewrite of a unary operator does not depend on layout. -/
theorem ofUnary_bare (t : Tree) (make : UnaryOp → Kind) (old new : UnaryOp) :
    (ofUnary t make old new).bare = ofUnary t.bare make old new := by
  rw [bare, ofUnary, ofUnary, Graft.retoken_bare]

end Rewrite

namespace Mutator

/-- The rewrites of a binary operator do not depend on layout. -/
theorem binaryRewrites_bare (a : Arena) (id : Nat) (t : Tree) (old : BinaryOp) :
    binaryRewrites a.bare id t.bare old = (binaryRewrites a id t old).map Rewrite.bare := by
  rw [binaryRewrites, Rewrite.place?_bare, binaryRewrites, List.map_map]
  congr 1
  funext new
  rw [Function.comp_apply, Rewrite.bare, Rewrite.withOperator_bare]

/-- The rewrites of an identifier do not depend on layout. -/
theorem identifierRewrites_bare (flow : MethodFlow) (id : Nat) (t : Tree) (old : String) :
    identifierRewrites flow id t.bare old =
      (identifierRewrites flow id t old).map (List.map Rewrite.bare) := by
  rw [identifierRewrites, identifierRewrites]
  cases flow.reachingDefinitions id with
  | error e => rfl
  | ok facts =>
      dsimp only [Except.map]
      rw [List.map_map]
      congr 2
      funext new
      rw [Function.comp_apply, Rewrite.bare, Graft.retoken_bare]

/-- **The rewrites** of a mutator do not depend on layout. -/
theorem rewrites_bare (m : Mutator) (a : Arena) (flow : Option MethodFlow) (id : Nat) (t : Tree) :
    m.rewrites a.bare flow id t.bare =
      (m.rewrites a flow id t).map (List.map Rewrite.bare) := by
  unfold rewrites
  rw [Tree.kind_bare]
  cases m with
  | binaryOperator =>
      cases t.kind with
      | binary old => exact congrArg Except.ok (binaryRewrites_bare a id t old)
      | _ => rfl
  | postfixStep =>
      cases t.kind with
      | postfixUnary old =>
          dsimp only
          cases old.flipped? with
          | some new => simp [Except.map, Rewrite.ofUnary_bare]
          | none => rfl
      | _ => rfl
  | prefixOperator =>
      cases t.kind with
      | prefixUnary old =>
          dsimp only
          cases old.flipped? <;> simp [Except.map, Rewrite.ofUnary_bare]
      | _ => rfl
  | statementDeletion =>
      dsimp only
      split
      · simp [Except.map, Rewrite.bare, Graft.synthetic, Graft.bare, Graft.bares]
      · rfl
  | identifierReplacement =>
      cases t.kind with
      | identifier old =>
          cases flow with
          | none => rfl
          | some flow => exact identifierRewrites_bare flow id t old
      | _ => rfl

variable {flow flow' : Option MethodFlow} (h : flow.map MethodFlow.core = flow'.map MethodFlow.core)

include h

/-- The rewrites of a mutator depend on the core of the data flow only. -/
theorem rewrites_congr (m : Mutator) (a : Arena) (id : Nat) (t : Tree) :
    m.rewrites a flow id t = m.rewrites a flow' id t := by
  unfold rewrites
  cases flow with
  | none =>
      obtain rfl := Option.map_eq_none_iff.mp h.symm
      rfl
  | some f =>
      obtain ⟨f', rfl, hcore⟩ := Option.map_eq_some_iff.mp h.symm
      simp only [identifierRewrites, MethodFlow.reachingDefinitions_congr hcore]

/-- What a mutator applies to depends on the core of the data flow only. -/
theorem applies_congr (m : Mutator) (id : Nat) (kind : Kind) :
    m.applies flow id kind = m.applies flow' id kind := by
  unfold applies
  cases flow with
  | none =>
      obtain rfl := Option.map_eq_none_iff.mp h.symm
      rfl
  | some f =>
      obtain ⟨f', rfl, hcore⟩ := Option.map_eq_some_iff.mp h.symm
      simp only [Option.any_some, MethodFlow.covers_congr hcore]

end Mutator

/-! ## Proposals -/

/-- Two results that agree up to a function are the same failure or agree so as values. -/
theorem eq_error_or_ok_of_map_eq {ε α β : Type} {f : α → β} {x y : Except ε α}
    (h : x.map f = y.map f) : (∃ e, x = .error e ∧ y = .error e) ∨
      ∃ a b, x = .ok a ∧ y = .ok b ∧ f a = f b := by
  cases x with
  | error e =>
      cases y with
      | error e' => exact .inl ⟨e, rfl, by rw [Except.error.inj h]⟩
      | ok b => cases h
  | ok a =>
      cases y with
      | error e => cases h
      | ok b => exact .inr ⟨a, b, rfl, rfl, Except.ok.inj h⟩

/-- A proposal with nothing but the kinds of the nodes. -/
def Proposal.bare (r : Proposal) : Proposal :=
  { r with old := r.old.bare, rewrite := r.rewrite.bare }

/-- What mutants are made of at a scope. -/
def MethodScope.core (s : MethodScope) : Nat × Table UseSite × FlowSolution Fact :=
  (s.stop, s.flow.core)

namespace MutationPlan

variable {p p' : MutationPlan} (hmutators : p'.mutators = p.mutators) {a : Arena}

/-- The scope behind a node does not depend on layout. -/
theorem enter_bare (p p' : MutationPlan) {scope scope' : Option MethodScope}
    (h : scope'.map MethodScope.core = scope.map MethodScope.core) (a : Arena) (id : Nat)
    (t : Tree) : (p'.enter a.bare scope' id t.bare).map (Option.map MethodScope.core) =
      (p.enter a scope id t).map (Option.map MethodScope.core) := by
  rw [enter, enter, Tree.kind_bare, MethodFlow.analyze_bare, Tree.size_bare]
  split
  · have hflows := MethodFlow.analyze_core a p'.conditionUses p.conditionUses id
    rcases eq_error_or_ok_of_map_eq hflows with ⟨e, hflow', hflow⟩ | ⟨f', f, hflow', hflow, hcore⟩
    · rw [hflow', hflow]
    · rw [hflow', hflow]
      simp only [Except.map, Option.map_some, MethodScope.core, hcore]
  · cases scope with
    | none =>
        obtain rfl := Option.map_eq_none_iff.mp h
        rfl
    | some s =>
        obtain ⟨s', rfl, hcore⟩ := Option.map_eq_some_iff.mp h
        have hstop : s'.stop = s.stop := congrArg Prod.fst hcore
        rw [Option.filter_some, Option.filter_some, hstop]
        split
        · exact congrArg Except.ok h
        · rfl

include hmutators

/-- The proposals at a node do not depend on layout. -/
theorem proposalsAt_bare {flow flow' : Option MethodFlow}
    (h : flow'.map MethodFlow.core = flow.map MethodFlow.core) (id : Nat) (t : Tree) :
    p'.proposalsAt a.bare flow' id t.bare =
      (p.proposalsAt a flow id t).map (List.map Proposal.bare) := by
  have hfirst : Mutator.first? p'.mutators flow' id t.kind =
      Mutator.first? p.mutators flow id t.kind := by
    rw [hmutators, Mutator.first?, Mutator.first?]
    congr 1
    funext m
    exact Mutator.applies_congr h m id t.kind
  rw [proposalsAt, proposalsAt, Tree.kind_bare, hfirst]
  cases Mutator.first? p.mutators flow id t.kind with
  | none => rfl
  | some m =>
      dsimp only
      rw [Mutator.rewrites_bare, Mutator.rewrites_congr h]
      cases m.rewrites a flow id t with
      | error e => rfl
      | ok rs => simp [Except.map, bind, Except.bind, pure, Except.pure, Proposal.bare]

/-- The proposals at nodes in a row do not depend on layout. -/
theorem proposalsFrom_bare (nodes : List (Nat × Tree)) {scope scope' : Option MethodScope}
    (h : scope'.map MethodScope.core = scope.map MethodScope.core) :
    p'.proposalsFrom a.bare scope' (Tree.bareNumbered nodes) =
      (p.proposalsFrom a scope nodes).map (List.map Proposal.bare) := by
  induction nodes generalizing scope scope' with
  | nil => rfl
  | cons node nodes ih =>
      obtain ⟨id, t⟩ := node
      have henter := enter_bare p p' h a id t
      rw [Tree.bareNumbered, List.map_cons, ← Tree.bareNumbered, proposalsFrom, proposalsFrom]
      rcases eq_error_or_ok_of_map_eq henter with
        ⟨e, hnext', hnext⟩ | ⟨s', s, hnext', hnext, hscope⟩
      · rw [hnext', hnext]
        rfl
      · -- The flows of the two scopes may differ, but not in what is asked of them.
        have hflow : (s'.map MethodScope.flow).map MethodFlow.core =
            (s.map MethodScope.flow).map MethodFlow.core := by
          have hsnd := congrArg (Option.map Prod.snd) hscope
          rwa [Option.map_map, Option.map_map] at hsnd ⊢
        rw [hnext', hnext]
        simp only [bind, Except.bind]
        rw [proposalsAt_bare hmutators hflow, ih hscope]
        cases p.proposalsAt a (s.map MethodScope.flow) id t with
        | error e => rfl
        | ok here =>
            cases p.proposalsFrom a s nodes with
            | error e => rfl
            | ok later => exact congrArg Except.ok List.map_append.symm

omit hmutators

/-! ## Fresh proposals -/

/-- The new tree of a proposal does not depend on layout. -/
theorem bare_newTree (p p' : MutationPlan) (r : Proposal) :
    (p'.newTree r.bare).bare = (p.newTree r).bare := by
  rw [newTree, newTree, ← Graft.bare_toTree _ .nowhere r.bare.old.span, Graft.bare_withTrailing,
    ← Graft.bare_toTree _ .nowhere r.old.span, Graft.bare_withTrailing]
  exact Graft.bare_toTree r.rewrite.graft.bare .nowhere .nowhere

/-- Whether a shape is new does not depend on layout. -/
theorem addShape?_bare (p p' : MutationPlan) (original : List (Kind × Nat)) (seen : Shapes)
    (r : Proposal) : p'.addShape? original seen r.bare = p.addShape? original seen r := by
  have hshape := Tree.bare_eq_iff.mp (bare_newTree p p' r)
  have hsize : r.bare.old.size = r.old.size := Tree.size_bare r.old
  have htarget : r.bare.target = r.target := rfl
  rw [addShape?, addShape?, hshape, hsize, htarget]

/-- Which proposals are fresh does not depend on layout. -/
theorem fresh_bare (p p' : MutationPlan) (original : List (Kind × Nat)) (seen : Shapes)
    (rs : List Proposal) : p'.fresh original seen (rs.map Proposal.bare) =
      (p.fresh original seen rs).map Proposal.bare := by
  induction rs generalizing seen with
  | nil => rfl
  | cons r rs ih =>
      rw [List.map_cons, fresh, fresh, addShape?_bare p p']
      cases p.addShape? original seen r with
      | none => exact ih seen
      | some seen => exact congrArg (r.bare :: ·) (ih seen)

end MutationPlan

/-! ## Mutants -/

/-- Two mutants agree up to layout. -/
structure Mutant.Alike (m m' : Mutant) : Prop where
  shape : m.document.sameShape m'.document = true
  family : m.family = m'.family
  target : m.target = m'.target
  method : m.method = m'.method
  summary : m.summary = m'.summary

namespace MutationPlan

variable {p p' : MutationPlan} {d d' : Document}

/-- Mutants of like documents and like proposals are alike. -/
theorem mutantOf_alike (h : d.tree.bare = d'.tree.bare) {r r' : Proposal} (hr : r.bare = r'.bare) :
    (p.mutantOf d d.arena r).Alike (p'.mutantOf d' d'.arena r') := by
  have htarget : r.bare.target = r'.bare.target := by rw [hr]
  have hmutator : r.bare.mutator = r'.bare.mutator := by rw [hr]
  have hsummary : r.bare.rewrite.summary = r'.bare.rewrite.summary := by rw [hr]
  dsimp only [Proposal.bare] at htarget hmutator hsummary
  constructor
  · have hnew : (p.newTree r).bare = (p'.newTree r').bare := by
      rw [← bare_newTree p p r, hr, bare_newTree p' p r']
    have htree : (Tree.replaceAt (p.newTree r) r.target d.tree).bare =
        (Tree.replaceAt (p'.newTree r') r'.target d'.tree).bare := by
      rw [Tree.bare_replaceAt, Tree.bare_replaceAt, hnew, htarget, h]
    exact beq_iff_eq.mpr (Tree.bare_eq_iff.mp htree)
  · exact congrArg Mutator.family hmutator
  · exact htarget
  · have harena : d.arena.bare = d'.arena.bare := by
      rw [Document.arena, ← Tree.arena_bare, h, Tree.arena_bare, Document.arena]
    dsimp only [mutantOf]
    rw [← Arena.enclosingMethod?_bare, harena, htarget, Arena.enclosingMethod?_bare]
  · exact hsummary

/-- The proposals for like documents are alike. -/
theorem proposals_alike (h : d.tree.bare = d'.tree.bare) (hmutators : p.mutators = p'.mutators) :
    (p.proposals d d.arena).map (List.map Proposal.bare) =
      (p'.proposals d' d'.arena).map (List.map Proposal.bare) := by
  rw [proposals, proposals, ← proposalsFrom_bare hmutators.symm _ rfl,
    ← proposalsFrom_bare rfl _ rfl, Document.arena, Document.arena, ← Tree.arena_bare,
    ← Tree.arena_bare, ← Tree.numbered_bare, ← Tree.numbered_bare, h]

/-- **Documents of one shape have the same mutants** up to layout, in the same order. -/
theorem mutants_alike (h : d.tree.shape = d'.tree.shape) (hmutators : p.mutators = p'.mutators)
    {ms : List Mutant} (hms : p.mutants d = .ok ms) :
    ∃ ms', p'.mutants d' = .ok ms' ∧ List.Forall₂ Mutant.Alike ms ms' := by
  have hbare := Tree.bare_eq_iff.mpr h
  rcases eq_error_or_ok_of_map_eq (proposals_alike hbare hmutators) with
    ⟨e, hproposals, -⟩ | ⟨rs, rs', hproposals, hproposals', hrs⟩
  · simp only [mutants, hproposals] at hms
    cases hms
  · simp only [mutants, hproposals] at hms
    cases hms
    refine ⟨_, by simp only [mutants, hproposals']; rfl, ?_⟩
    -- What is fresh is decided by shapes alone, so the same proposals are on either side.
    have hfresh : (p.fresh d.tree.shape (.ofOriginal d.tree.shape) rs).map Proposal.bare =
        (p'.fresh d'.tree.shape (.ofOriginal d'.tree.shape) rs').map Proposal.bare := by
      rw [← fresh_bare p p', ← fresh_bare p' p', hrs, h]
    rw [← List.forall₂_eq_eq_eq, List.forall₂_map_left_iff, List.forall₂_map_right_iff] at hfresh
    rw [List.forall₂_map_left_iff, List.forall₂_map_right_iff]
    exact hfresh.imp fun _ _ hr => mutantOf_alike hbare hr

end MutationPlan

end SharpMutants
