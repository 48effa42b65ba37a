import SharpMutants.Proofs.Check.Tracking
import SharpMutants.Proofs.Numbering

/-!
# Where locals are declared

A statement that is itself a branch or the body of a loop may be a declaration; its local is
then in scope behind the branch or loop, executed or not (`Tree.Loose`).  Every local that
a branch or the body of a loop adds to the scope around is one of these
(`addedBy_of_mem_locals`, `AddedBy.loose`).  What a name stands for changes only with the
declaration of a local of that name (`resolve?_declare`, `resolve?_declareAll`).
-/

namespace SharpMutants

/-! ## Declarations in a tree -/

namespace Tree

/-- A node is a declarator of a name. -/
def DeclaresName (t : Tree) (n : Nat) (name : String) : Prop :=
  ∃ u, t.subtree? n = some u ∧ u.kind = .variableDeclarator name

/-- The statement of a declaration is itself a branch or the body of a loop, so its local is in
scope even where it has not been executed. -/
def Loose (t : Tree) (ℓ : Nat) : Prop :=
  ∃ declaration statement around s p, t.arena.parent? ℓ = some declaration ∧
    t.arena.parent? declaration = some statement ∧ t.subtree? statement = some s ∧
    s.kind = .localDeclaration ∧ t.arena.parent? statement = some around ∧
    t.subtree? around = some p ∧ p.kind ≠ .block

/-- A local may pass for another one in a method: it is declared loosely, and behind another
declarator of its name. -/
def Stale (t : Tree) (m ℓ : Nat) : Prop :=
  t.Loose ℓ ∧ ∃ n name, m < n ∧ n < ℓ ∧ t.DeclaresName n name ∧ t.DeclaresName ℓ name

variable {root s u : Tree} {p n : Nat}

/-- One node is the child of another. -/
structure ChildAt (root : Tree) (p n : Nat) (u : Tree) : Prop where
  here : root.subtree? n = some u
  parent : root.arena.parent? n = some p

/-- A child stands behind its parent and the children before it. -/
theorem childAt (h : root.subtree? p = some s) (ls : List Tree) {rs : List Tree}
    (hcs : s.children = ls ++ u :: rs) : root.ChildAt p (p + 1 + sizes ls) u :=
  ⟨subtree?_child h hcs, Arena.parent?_eq_some_iff.mpr
    ((Arena.isChild_iff h).mpr ⟨ls, u, rs, hcs, rfl⟩)⟩

/-- A child is below its parent. -/
theorem ChildAt.below (h : root.ChildAt p n u) : root.Below p n :=
  (Arena.parent?_eq_some_iff.mp h.parent).below

/-- Where the `else` of an `if` stands. -/
theorem childAt_else {d e : Node} {cond body other : Tree}
    (h : root.subtree? p = some (.node d [cond, body, .node e [other]])) :
    root.ChildAt p (p + 1 + cond.size + body.size) (.node e [other]) := by
  have hclause := childAt h [cond, body] rfl
  rwa [show p + 1 + sizes [cond, body] = p + 1 + cond.size + body.size by
    simp [sizes]; omega] at hclause

/-- Where the body of a `for` stands. -/
theorem childAt_body {d : Node} {init cond step body : Tree}
    (h : root.subtree? p = some (.node d [init, cond, step, body])) :
    root.ChildAt p (p + 1 + init.size + cond.size + step.size) body := by
  have hbody := childAt h [init, cond, step] rfl
  rwa [show p + 1 + sizes [init, cond, step] = p + 1 + init.size + cond.size + step.size by
    simp [sizes]; omega] at hbody

/-- The children of a node, with their numbers, are its children in the tree. -/
theorem childAt_of_mem (h : root.subtree? p = some s)
    (hu : (n, u) ∈ numberFrom (p + 1) s.children) : root.ChildAt p n u := by
  refine ⟨subtree?_of_mem_numberFrom h hu, Arena.parent?_eq_some_iff.mpr ?_⟩
  rw [Arena.IsChild, Arena.childrenOf_arena h]
  exact List.mem_map.mpr ⟨(n, u), hu, rfl⟩

end Tree

namespace Execution

open SharpMutants.Tree

variable {root t : Tree} {id p : Nat} {x : String} {ℓ : Nat}

/-- The locals of declarators have their names and stand where they stand. -/
theorem mem_declared {ds : List (Nat × Tree)} :
    (x, ℓ) ∈ declared ds ↔ ∃ u, (ℓ, u) ∈ ds ∧ u.kind = .variableDeclarator x := by
  rw [declared, List.mem_filterMap]
  constructor
  · intro h
    obtain ⟨⟨n, u⟩, hu, hlocal⟩ := h
    dsimp only at hlocal
    split at hlocal
    · cases hlocal
      exact ⟨u, hu, ‹_›⟩
    · cases hlocal
  · intro h
    obtain ⟨u, hu, hkind⟩ := h
    refine ⟨(ℓ, u), hu, ?_⟩
    dsimp only
    rw [hkind]

/-- The declarators of a declaration are its children. -/
theorem mem_declarators {u : Tree} (h : root.subtree? id = some t)
    (hu : (ℓ, u) ∈ declarators id t) : root.ChildAt id ℓ u := by
  rw [declarators] at hu
  split at hu
  · exact childAt_of_mem h hu
  · cases hu

/-- Where a local is declared that the statement at a node adds to the scope in which it
stands: by the statement itself, or loosely in it. -/
structure AddedBy (root : Tree) (id : Nat) (t : Tree) (x : String) (ℓ : Nat) : Prop where
  below : root.Below id ℓ
  declares : root.DeclaresName ℓ x
  place : root.Loose ℓ ∨ (t.kind = .localDeclaration ∧
    ∃ n, root.arena.parent? ℓ = some n ∧ root.arena.parent? n = some id)

/-- What a branch or the body of a loop adds is declared loosely. -/
theorem AddedBy.loose {around : Tree} (h : AddedBy root id t x ℓ) (hid : root.ChildAt p id t)
    (hp : root.subtree? p = some around) (hkind : around.kind ≠ .block) : root.Loose ℓ := by
  rcases h.place with hloose | ⟨hlocal, n, hℓ, hn⟩
  · exact hloose
  · exact ⟨n, id, p, t, around, hℓ, hn, hid.here, hlocal, hid.parent, hp, hkind⟩

/-- A local that a child adds is added by the node around it, unless that is a block. -/
theorem AddedBy.of_child {around : Tree} (h : AddedBy root id t x ℓ)
    (hid : root.ChildAt p id t) (hp : root.subtree? p = some around)
    (hkind : around.kind ≠ .block) : AddedBy root p around x ℓ where
  below := hid.below.trans h.below
  declares := h.declares
  place := .inl (h.loose hid hp hkind)

/-- The locals that a statement adds to the scope in which it stands are declared in it. -/
theorem addedBy_of_mem_locals (h : Check.Statement t) (hid : root.subtree? id = some t)
    (hℓ : (x, ℓ) ∈ locals id t) : AddedBy root id t x ℓ := by
  induction h generalizing id with
  | @declaration d t hkind part =>
      rw [locals_declaration hkind, mem_declared] at hℓ
      obtain ⟨u, hu, hdeclares⟩ := hℓ
      have hdeclaration := childAt hid [] rfl
      have hdeclarator := mem_declarators hdeclaration.here hu
      exact ⟨hdeclaration.below.trans hdeclarator.below, ⟨u, hdeclarator.here, hdeclares⟩,
        .inr ⟨hkind, _, hdeclarator.parent, hdeclaration.parent⟩⟩
  | @ifThen d cond body hkind _ _ ih =>
      rw [locals_ifThen hkind] at hℓ
      have hbody := childAt hid [cond] rfl
      exact (ih hbody.here hℓ).of_child hbody hid (by simp [Tree.kind, Tree.root, hkind])
  | @ifElse d e cond body other hkind helse _ _ _ ih ihOther =>
      rw [locals_ifElse hkind, List.mem_append] at hℓ
      rcases hℓ with hℓ | hℓ
      · have hbody := childAt hid [cond] rfl
        exact (ih hbody.here hℓ).of_child hbody hid (by simp [Tree.kind, Tree.root, hkind])
      · have hclause := childAt_else hid
        have hother := childAt hclause.here [] rfl
        have hinner := (ihOther hother.here hℓ).of_child hother hclause.here
          (by simp [Tree.kind, Tree.root, helse])
        exact hinner.of_child hclause hid (by simp [Tree.kind, Tree.root, hkind])
  | @whileLoop d cond body hkind _ _ ih =>
      rw [locals_while hkind] at hℓ
      have hbody := childAt hid [cond] rfl
      exact (ih hbody.here hℓ).of_child hbody hid (by simp [Tree.kind, Tree.root, hkind])
  | block hkind | expression hkind | empty hkind | returnNothing hkind | returnValue hkind
  | forLoop hkind =>
      rw [locals_other (by rw [hkind]; rfl)] at hℓ
      cases hℓ

/-! ## Scopes -/

section Scopes

variable {fs : Frames} {es : List (String × Nat)} {name : String} {n : Nat}

/-- The locals in scope are declared before a node. -/
def Older (fs : Frames) (id : Nat) : Prop := ∀ f ∈ fs, ∀ e ∈ f, e.2 < id

/-- What is looked up in a frame is in it. -/
theorem mem_of_lookup {f : List (String × Nat)} (h : f.lookup name = some ℓ) : (name, ℓ) ∈ f := by
  induction f with
  | nil => cases h
  | cons e f ih =>
      rw [List.lookup_cons] at h
      by_cases hname : name = e.1
      · rw [hname, beq_self_eq_true] at h
        cases h
        rw [hname]
        exact List.mem_cons_self
      · rw [beq_eq_false_iff_ne.mpr hname] at h
        exact List.mem_cons_of_mem e (ih h)

/-- What a name resolves to is in one of the frames. -/
theorem mem_of_resolve? (h : resolve? fs name = some ℓ) : ∃ f ∈ fs, (name, ℓ) ∈ f := by
  obtain ⟨f, hf, hlookup⟩ := List.exists_of_findSome?_eq_some h
  exact ⟨f, hf, mem_of_lookup hlookup⟩

/-- A local that a name resolves to stands before what it is older than. -/
theorem Older.lt (h : Older fs n) (hℓ : resolve? fs name = some ℓ) : ℓ < n := by
  obtain ⟨f, hf, hmem⟩ := mem_of_resolve? hℓ
  exact h f hf _ hmem

theorem Older.mono {n' : Nat} (h : Older fs n) (hle : n ≤ n') : Older fs n' :=
  fun f hf e he => Nat.lt_of_lt_of_le (h f hf e he) hle

/-- Declaring a local that stands before a node keeps the frames older than it. -/
theorem Older.declare (h : Older fs n) (hn : ℓ < n) (name : String) :
    Older (declare fs name ℓ) n := by
  cases fs with
  | nil => exact h
  | cons f fs =>
      rw [Execution.declare]
      split
      · exact h
      · rw [Older, List.forall_mem_cons] at h ⊢
        exact ⟨List.forall_mem_cons.mpr ⟨hn, h.1⟩, h.2⟩

/-- Declaring locals that stand before a node keeps the frames older than it. -/
theorem Older.declareAll (h : Older fs n) (hes : ∀ e ∈ es, e.2 < n) :
    Older (declareAll fs es) n := by
  induction es generalizing fs with
  | nil => exact h
  | cons e es ih =>
      rw [List.forall_mem_cons] at hes
      exact ih (h.declare hes.1 e.1) hes.2

/-- Behind a declarator a name stands for the new local, or for what it stood for. -/
theorem resolve?_declare (h : resolve? (declare fs name n) x = some ℓ) :
    (x = name ∧ ℓ = n) ∨ resolve? fs x = some ℓ := by
  cases fs with
  | nil => cases h
  | cons f fs =>
      rw [declare] at h
      split at h
      · exact .inr h
      · rw [resolve?, List.findSome?_cons, List.lookup_cons] at h
        by_cases hx : x = name
        · rw [hx, beq_self_eq_true] at h
          exact .inl ⟨hx, (Option.some.inj h).symm⟩
        · rw [beq_eq_false_iff_ne.mpr hx] at h
          rw [resolve?, List.findSome?_cons]
          exact .inr h

/-- A name resolves to a local that was just declared, or as it did before. -/
theorem resolve?_declareAll (h : resolve? (declareAll fs es) x = some ℓ) :
    (x, ℓ) ∈ es ∨ resolve? fs x = some ℓ := by
  induction es generalizing fs with
  | nil => exact .inr h
  | cons e es ih =>
      rw [List.mem_cons, or_assoc, or_left_comm]
      refine (ih h).imp_right fun h => (resolve?_declare h).imp_left ?_
      intro ⟨hx, hℓ⟩
      rw [hx, hℓ]

/-- Names that are not in the innermost scope do not depend on it. -/
theorem resolve?_cons {f : List (String × Nat)} (h : x ∉ f.map Prod.fst) :
    resolve? (f :: fs) x = resolve? fs x := by
  have hnone : f.lookup x = none := by
    rw [← lookup_isSome, Bool.not_eq_true, Option.isSome_eq_false_iff,
      Option.isNone_iff_eq_none] at h
    exact h
  rw [resolve?, List.findSome?_cons, hnone, resolve?]

end Scopes

end Execution

end SharpMutants
