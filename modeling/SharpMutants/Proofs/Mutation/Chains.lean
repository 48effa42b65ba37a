import Mathlib.Logic.Relation
import SharpMutants.Proofs.Mutation.Grammatical

/-!
# Mutation after mutation

A document offers the rewrites that the mutators make of its nodes (`Document.Offers`),
and to mutate it is to put one of them in place, with or without a comment
(`Document.Mutates`).  The trees may hold parentheses, operators and semicolons from
earlier mutations, or not be read from a source at all: all that matters is that they
are grammatical.  Then every mutation keeps them so, and by induction so does every
chain of mutations: `mutations_grammatical`.  The mutants of a document are mutations of
it (`Document.mutates_of_mem_mutants`).
-/

namespace SharpMutants

/-- A mutator makes a rewrite of a node, given the data flow of a method, such as the one around the
node, or none. -/
def Document.Offers (d : Document) (id : Nat) (r : Rewrite) : Prop :=
  ∃ (m : Mutator) (flow : Option MethodFlow) (old : Tree) (made : List Rewrite),
    d.subtree? id = some old ∧
      (∀ f ∈ flow, ∃ conditionUses k, MethodFlow.analyze d.arena conditionUses k = .ok f) ∧
      m.rewrites d.arena flow id old = .ok made ∧ r ∈ made

/-- A document becomes another one when a rewrite of a node is put in place. -/
inductive Document.Mutates (d : Document) : Document → Prop
  | bare {id : Nat} {r : Rewrite} (h : d.Offers id r) : Mutates d (d.replace id r.graft)
  | commented {id : Nat} {r : Rewrite} (h : d.Offers id r) (marker : Option String) :
      Mutates d (d.replace id (r.graft.withTrailing marker))

/-- The grafts of the mutators have no comment of their own. -/
theorem Rewrite.OfNode.withTrailing_none {place : Option Rewrite.Place} {known : String → Prop}
    {t : Tree} {m : Mutator} {r : Rewrite} (h : Rewrite.OfNode place known t m r) :
    r.graft.withTrailing none = r.graft := by
  cases h with
  | binary _ _ _ =>
      dsimp only
      unfold withOperator
      split <;> rfl
  | postfixStep _ _ => rfl
  | prefixOperator _ _ _ => rfl
  | deletion _ => rfl
  | identifier _ _ _ => rfl

namespace Document

variable {d d' : Document} {id : Nat} {r : Rewrite}

/-- Replacing a node of a document replaces the node of its tree. -/
theorem tree_replace {old : Tree} (hold : d.subtree? id = some old) (graft : Graft) :
    (d.replace id graft).tree = Tree.replaceAt (graft.toTree old.span) id d.tree := by
  rw [replace, hold]
  rfl

/-- The other operators are among the rewrites of a binary expression. -/
theorem offers_operator {old : Tree} {op : BinaryOp} (hold : d.subtree? id = some old)
    (hkind : old.kind = .binary op) (new : BinaryOp) (hnew : new ∈ BinaryOp.interchangeable)
    (hne : new ≠ op) :
    d.Offers id ⟨Rewrite.withOperator old (Rewrite.place? d.arena id) new,
      Rewrite.swapSummary op.symbol new.symbol⟩ := by
  refine ⟨.binaryOperator, none, old, Mutator.binaryRewrites d.arena id old op, hold, nofun, ?_, ?_⟩
  · unfold Mutator.rewrites
    rw [hkind]
  · apply List.mem_map_of_mem
    exact List.mem_filter.mpr ⟨hnew, by simpa using hne⟩

/-- What a document offers is a rewrite of the node in its place, under the data flow of some
plan. -/
theorem Offers.exists_ofNode (h : d.Offers id r) :
    ∃ (p : MutationPlan) (m : Mutator) (old : Tree), d.subtree? id = some old ∧
      Rewrite.OfNode (Rewrite.place? d.arena id) (p.Known d.arena id) old m r := by
  obtain ⟨m, flow, old, made, hold, hflow, hmade, hr⟩ := h
  have hnode := Mutator.ofNode_of_mem hmade hr
  cases flow with
  | none =>
      refine ⟨⟨[], none, false⟩, m, old, hold, hnode.mono ?_⟩
      intro name hname
      obtain ⟨f, hf, -⟩ := hname
      cases hf
  | some flow =>
      obtain ⟨conditionUses, k, hanalyze⟩ := hflow flow rfl
      refine ⟨⟨[], none, conditionUses⟩, m, old, hold, hnode.mono ?_⟩
      intro name hname
      obtain ⟨f, hf, hreaches⟩ := hname
      obtain rfl := Option.some.inj hf
      exact ⟨flow, ⟨k, hanalyze⟩, hreaches⟩

/-- **A rewrite of a node** of a grammatical tree keeps it grammatical. -/
theorem Offers.grammatical (h : d.Offers id r) (ht : d.tree.Grammatical) (marker : Option String) :
    (d.replace id r.graft).tree.Grammatical ∧
      (d.replace id (r.graft.withTrailing marker)).tree.Grammatical := by
  obtain ⟨p, m, old, hold, hnode⟩ := h.exists_ofNode
  have hbare := hnode.grammatical ht hold none
  rw [hnode.withTrailing_none] at hbare
  rw [tree_replace hold, tree_replace hold]
  exact ⟨hbare, hnode.grammatical ht hold marker⟩

/-- **One mutation** keeps a tree grammatical. -/
theorem Mutates.grammatical (h : d.Mutates d') (ht : d.tree.Grammatical) :
    d'.tree.Grammatical := by
  cases h with
  | bare h => exact (h.grammatical ht none).1
  | commented h marker => exact (h.grammatical ht marker).2

/-- **A chain of mutations** keeps a tree grammatical. -/
theorem grammatical_of_chain (h : Relation.ReflTransGen Mutates d d') (ht : d.tree.Grammatical) :
    d'.tree.Grammatical := by
  induction h with
  | refl => exact ht
  | tail _ hlast ih => exact hlast.grammatical ih

/-- **The mutants of a document** are mutations of it. -/
theorem mutates_of_mem_mutants {p : MutationPlan} {ms : List Mutant} (h : p.mutants d = .ok ms) :
    ∀ m ∈ ms, d.Mutates m.document := by
  cases hproposals : p.proposals d d.arena with
  | error e =>
      simp only [MutationPlan.mutants, hproposals] at h
      cases h
  | ok rs =>
      simp only [MutationPlan.mutants, hproposals] at h
      cases h
      intro m hm
      obtain ⟨r, hr, rfl⟩ := List.mem_map.mp hm
      obtain ⟨hnode, flow, made, hflow, hmade, hrewrite⟩ := MutationPlan.exists_rewrites
        MutationPlan.analyzed_none hproposals r (MutationPlan.mem_of_mem_fresh hr)
      have hold : d.subtree? r.target = some r.old := by
        obtain ⟨⟨s, n⟩, hs, heq⟩ := List.mem_map.mp hnode
        obtain ⟨rfl, rfl⟩ := Prod.mk.inj heq
        exact List.mem_zipIdx_iff_getElem?.mp hs
      have hoffers : d.Offers r.target r.rewrite :=
        ⟨r.mutator, flow, r.old, made, hold, fun f hf => ⟨_, hflow f hf⟩, hmade, hrewrite⟩
      have hdocument : (p.mutantOf d d.arena r).document =
          d.replace r.target (r.rewrite.graft.withTrailing p.marker) := by
        rw [replace, hold]
        rfl
      rw [hdocument]
      exact .commented hoffers p.marker

end Document

/-- **Mutation keeps trees grammatical, any number of times.**  Whatever rewrite of whatever node a
mutator makes, with or without a comment, it leaves a grammatical tree grammatical; so every tree
that a chain of mutations makes of a tree read from a source is grammatical. -/
theorem mutations_grammatical :
    (∀ d : Document, d.tree.Grammatical → ∀ id r, d.Offers id r → ∀ marker,
      (d.replace id r.graft).tree.Grammatical ∧
        (d.replace id (r.graft.withTrailing marker)).tree.Grammatical) ∧
      ∀ source d, parse source = .ok d → ∀ d', Relation.ReflTransGen Document.Mutates d d' →
        d'.tree.Grammatical := by
  constructor
  · intro d ht id r hoffers marker
    exact hoffers.grammatical ht marker
  · intro source d hparse d' hchain
    obtain ⟨-, -, -, -, -, ht, -⟩ := conforms_of_parse hparse
    exact Document.grammatical_of_chain hchain ht

/-- A product under a difference becomes a sum in parentheses, and then the difference a product. -/
theorem mutations_grammatical_twice : ∃ d d₁ d₂ : Document,
    parse "class A \x7b void M() \x7b x = a - b * c; \x7d \x7d".toList = .ok d ∧
      d.Mutates d₁ ∧ (d₁.subtree? 9).map Tree.kind = some .parenthesized ∧ d₁.Mutates d₂ ∧
      (d₂.subtree? 7).map Tree.kind = some (.binary .mul) ∧
      d₁.tree.Grammatical ∧ d₂.tree.Grammatical := by
  have hread : (parse "class A \x7b void M() \x7b x = a - b * c; \x7d \x7d".toList).toOption.any
      (fun d => (d.subtree? 9).any fun product =>
        let d₁ := d.replace 9 (Rewrite.withOperator product (Rewrite.place? d.arena 9) .add)
        product.kind == .binary .mul && (d₁.subtree? 9).map Tree.kind == some .parenthesized &&
          (d₁.subtree? 7).any fun difference =>
            let d₂ := d₁.replace 7
              (Rewrite.withOperator difference (Rewrite.place? d₁.arena 7) .mul)
            difference.kind == .binary .sub &&
              (d₂.subtree? 7).map Tree.kind == some (.binary .mul)) = true := by
    decide +kernel
  obtain ⟨d, hd, hnodes⟩ := exists_document_of_any hread
  obtain ⟨product, hproduct, hnodes⟩ := (Option.any_eq_true _ _).mp hnodes
  simp only [Bool.and_eq_true, beq_iff_eq] at hnodes
  obtain ⟨⟨hmul, hparens⟩, hnodes⟩ := hnodes
  obtain ⟨difference, hdifference, hnodes⟩ := (Option.any_eq_true _ _).mp hnodes
  simp only [Bool.and_eq_true, beq_iff_eq] at hnodes
  obtain ⟨hsub, hmade⟩ := hnodes
  have hfirst := Document.offers_operator hproduct hmul .add (by decide) (by decide)
  have hsecond := Document.offers_operator hdifference hsub .mul (by decide) (by decide)
  have hchain := Relation.ReflTransGen.single (Document.Mutates.bare hfirst)
  have hgrammatical := mutations_grammatical.2 _ d hd _ hchain
  exact ⟨d, _, _, hd, .bare hfirst, hparens, .bare hsecond, hmade, hgrammatical,
    (mutations_grammatical.1 _ hgrammatical _ _ hsecond none).1⟩

end SharpMutants
