import SharpMutants.Proofs.Check.Naming
import SharpMutants.Proofs.Check.Locals
import SharpMutants.Proofs.Mutation.Scopes

/-!
# Locals whose scopes overlap

The scope of a local is the block in which its declaration stands, or the loop at whose
head it is declared (`Tree.ScopeOf`).  A tree is free of overlaps, with certain names
taken around it, when no local whose scope is in it has a taken name and no two of one
name have scopes one of which is in the other (`Tree.Free`).  That is decided from the
root down: `Tree.free_iff` speaks of the locals whose scope a node is, and with their
names taken as well, of the children.

The locals whose scope a block is are those that its statements declare, whose names
are the names that the check reserves (`isLocal_block`, `map_fst_direct`); those of a
loop are declared by its initializer (`isLocal_for`).
-/

namespace SharpMutants

/-! ## Where there are no scopes -/

section Conforming

variable {s : Symbol} {k : Kind} {ss : List Symbol} {t c : Tree}

/-- There may be statements in the trees of a symbol. -/
def Symbol.holdsStatements : Symbol → Bool
  | .variableDeclaration | .variableDeclarator | .expression _ => false
  | _ => true

/-- The statements that may declare locals. -/
def Kind.declaresLocals : Kind → Bool
  | .localDeclaration | .forStatement => true
  | _ => false

/-- What holds no statements has no declarations of locals, nor do its parts. -/
theorem Rule.declaresLocals_eq_false (rule : Rule s k ss) (hs : s.holdsStatements = false) :
    k.declaresLocals = false ∧ ∀ s' ∈ ss, s'.holdsStatements = false := by
  cases rule <;> simp_all [Symbol.holdsStatements, Kind.declaresLocals, List.mem_replicate]

/-- No statement of a declaration or an expression declares locals. -/
theorem Conforms.declaresLocals_eq_false (h : Conforms s t) (hs : s.holdsStatements = false) :
    ∀ u ∈ t.subtrees, u.kind.declaresLocals = false :=
  h.forall_subtrees (P := fun s => s.holdsStatements = false)
    (Q := fun k => k.declaresLocals = false) (fun _ _ _ rule => rule.declaresLocals_eq_false) hs

/-- Only declarations have declarators for children. -/
theorem Conforms.kind_of_declarator (h : Conforms s t) (hc : c ∈ t.children) {name : String}
    (hkind : c.kind = .variableDeclarator name) : ∃ type, t.kind = .variableDeclaration type := by
  obtain @⟨_, d, ss, cs, rule, -, children⟩ := h
  obtain ⟨s', hs', hchild⟩ := exists_symbol_of_mem children hc
  have hdeclarator : s' = .variableDeclarator := by
    obtain @⟨_, e, ss', cs', rule', -, -⟩ := hchild
    change e.kind = _ at hkind
    rw [hkind] at rule'
    cases rule' <;> rfl
  rw [hdeclarator] at hs'
  change ∃ type, d.kind = _
  generalize d.kind = k at rule
  cases rule with
  | @variableDeclaration type _ more => exact ⟨type, rfl⟩
  | _ => simp [List.mem_replicate] at hs'

/-- Declarations of variables stand in fields, in statements and at the heads of loops. -/
theorem Conforms.kind_of_declaration (h : Conforms s t) (hc : c ∈ t.children) {type : TypeName}
    (hkind : c.kind = .variableDeclaration type) :
    (∃ ms, t.kind = .fieldDecl ms) ∨ t.kind = .localDeclaration ∨ t.kind = .forStatement := by
  obtain @⟨_, d, ss, cs, rule, -, children⟩ := h
  obtain ⟨s', hs', hchild⟩ := exists_symbol_of_mem children hc
  have hdeclaration : s' = .variableDeclaration := by
    obtain @⟨_, e, ss', cs', rule', -, -⟩ := hchild
    change e.kind = _ at hkind
    rw [hkind] at rule'
    cases rule'
    rfl
  rw [hdeclaration] at hs'
  change (∃ ms, d.kind = _) ∨ d.kind = _ ∨ d.kind = _
  generalize d.kind = k at rule
  cases rule with
  | fieldDecl ms => exact .inl ⟨ms, rfl⟩
  | localDeclaration => exact .inr (.inl rfl)
  | forDeclaration => exact .inr (.inr rfl)
  | _ => simp [List.mem_replicate] at hs'

/-- There are no fields in a method. -/
theorem Conforms.ne_fieldDecl (h : Conforms s t) (hmethod : t.kind.isMethod = true) :
    ∀ u ∈ t.subtrees, ∀ ms, u.kind ≠ .fieldDecl ms := by
  have hrule : ∀ s k ss, Rule s k ss → s.holdsMethods = false →
      (∀ ms, k ≠ .fieldDecl ms) ∧ ∀ s' ∈ ss, s'.holdsMethods = false := by
    intro s k ss rule hs
    refine ⟨?_, rule.children_hold_no_methods (.inl hs)⟩
    rintro ms rfl
    cases rule
    cases hs
  obtain @⟨_, d, ss, cs, rule, -, children⟩ := h
  change d.kind.isMethod = true at hmethod
  intro u hu ms
  rw [Tree.subtrees_node, List.mem_cons] at hu
  rcases hu with rfl | hu
  · intro hkind
    change d.kind = _ at hkind
    rw [hkind] at hmethod
    cases hmethod
  · obtain ⟨c, hc, hu⟩ := Tree.mem_subtreesOf.mp hu
    obtain ⟨s', hs', hchild⟩ := exists_symbol_of_mem children hc
    exact hchild.forall_subtrees (P := fun s => s.holdsMethods = false)
      (Q := fun k => ∀ ms, k ≠ .fieldDecl ms) hrule
      (rule.children_hold_no_methods (.inr hmethod) s' hs') u hu ms

/-- An expression is no declaration. -/
theorem Conforms.kind_ne_variableDeclaration {level : Nat} (h : Conforms (.expression level) t)
    (type : TypeName) : t.kind ≠ .variableDeclaration type := by
  obtain @⟨_, d, ss, cs, rule, -, -⟩ := h
  change d.kind ≠ _
  generalize d.kind = k at rule
  cases rule <;> nofun

end Conforming

namespace Tree

/-- The scope of a local: the block in which the statement of its declaration stands, or the loop at
whose head it is declared. -/
inductive ScopeOf (t : Tree) (ℓ : Nat) : Nat → Prop
  | block {declaration statement b : Nat} {s : Tree}
      (declared : t.arena.parent? ℓ = some declaration)
      (stated : t.arena.parent? declaration = some statement)
      (here : t.subtree? statement = some s) (hkind : s.kind = .localDeclaration)
      (stands : t.arena.parent? statement = some b) : ScopeOf t ℓ b
  | loop {declaration b : Nat} {s : Tree} (declared : t.arena.parent? ℓ = some declaration)
      (started : t.arena.parent? declaration = some b) (here : t.subtree? b = some s)
      (hkind : s.kind = .forStatement) : ScopeOf t ℓ b

/-- A local of a name, with its scope. -/
structure IsLocal (t : Tree) (name : String) (ℓ b : Nat) : Prop where
  declares : t.DeclaresName ℓ name
  scope : t.ScopeOf ℓ b

/-- Among the locals whose scope is in the tree at a node none has a name that is taken, and no two
have one name and scopes one of which contains or equals the other. -/
structure Free (root : Tree) (taken : String → Prop) (id : Nat) : Prop where
  fresh : ∀ x ℓ b, root.IsLocal x ℓ b → root.Below id b → ¬taken x
  apart : ∀ x ℓ ℓ' b b', root.IsLocal x ℓ b → root.IsLocal x ℓ' b' → root.Below id b →
    root.Below b b' → ℓ = ℓ'

/-- Declarations stand in blocks. -/
def Tidy (t : Tree) (m : Nat) : Prop :=
  ∀ n s, t.Below m n → t.subtree? n = some s → s.kind = .localDeclaration →
    ∃ b u, t.arena.parent? n = some b ∧ t.subtree? b = some u ∧ u.kind = .block

/-- A method has a parameter of a name. -/
def HasParameter (t : Tree) (m : Nat) (name : String) : Prop :=
  ∃ n u type, t.ChildAt m n u ∧ u.kind = .parameter name type

/-- Locals in a method clash: two of one name, the scope of one containing or equalling that of the
other, or one that has the name of a parameter. -/
inductive Clash (t : Tree) (m : Nat) : Prop
  | overlap {x : String} {ℓ ℓ' b b' : Nat} (first : t.IsLocal x ℓ b) (second : t.IsLocal x ℓ' b')
      (hℓ : t.Below m ℓ) (hℓ' : t.Below m ℓ') (different : ℓ ≠ ℓ') (inside : t.Below b b')
  | parameter {x : String} {ℓ : Nat} (declares : t.DeclaresName ℓ x) (hℓ : t.Below m ℓ)
      (bound : t.HasParameter m x)

variable {root t u : Tree} {id n p b ℓ : Nat} {x : String} {taken : String → Prop}

/-- What is below a tidy node is tidy. -/
theorem Tidy.of_below (h : root.Tidy id) (hn : root.Below id n) : root.Tidy n :=
  fun k s hk => h k s (hn.trans hk)

/-- The children of a node stand where its children are numbered. -/
theorem childAt_iff (hid : root.subtree? id = some t) :
    root.ChildAt id n u ↔ (n, u) ∈ numberFrom (id + 1) t.children := by
  constructor
  · intro h
    have hn := Arena.parent?_eq_some_iff.mp h.parent
    rw [Arena.IsChild, Arena.childrenOf_arena hid] at hn
    obtain ⟨⟨_, v⟩, hv, rfl⟩ := List.mem_map.mp hn
    rwa [← Option.some.inj ((subtree?_of_mem_numberFrom hid hv).symm.trans h.here)]
  · exact childAt_of_mem hid

/-- Where the branch of an `if` or the body of a `while` stands. -/
theorem childAt_branch {d : Node} {cond body : Tree} {cs : List Tree}
    (hid : root.subtree? id = some (.node d (cond :: body :: cs))) :
    root.ChildAt id (id + 1 + cond.size) body :=
  (childAt_iff hid).mpr (by simp [children, numberFrom_cons])

/-- A child that stands behind a node is one of its children. -/
theorem ChildAt.mem (h : root.ChildAt id n u) (hid : root.subtree? id = some t) :
    u ∈ t.children := by
  rw [← map_snd_numberFrom (id + 1) t.children]
  exact List.mem_map_of_mem ((childAt_iff hid).mp h)

/-- Each child of a node stands somewhere. -/
theorem exists_childAt_of_mem (hid : root.subtree? id = some t) (hu : u ∈ t.children) :
    ∃ n, root.ChildAt id n u := by
  rw [← map_snd_numberFrom (id + 1) t.children] at hu
  obtain ⟨⟨n, _⟩, hn, rfl⟩ := List.mem_map.mp hu
  exact ⟨n, childAt_of_mem hid hn⟩

/-- Each node with a parent is a child of it. -/
theorem exists_childAt (h : root.arena.parent? n = some id) : ∃ u, root.ChildAt id n u := by
  obtain ⟨s, hs⟩ := (Arena.parent?_eq_some_iff.mp h).exists_subtree
  obtain ⟨ls, u, rs, hcs, rfl⟩ := (Arena.isChild_iff hs).mp (Arena.parent?_eq_some_iff.mp h)
  exact ⟨u, childAt hs ls hcs⟩

/-- What is below a node is one of its subtrees. -/
theorem mem_subtrees_of_below (hid : root.subtree? id = some t) (hn : root.Below id n)
    (hu : root.subtree? n = some u) : u ∈ t.subtrees := by
  obtain ⟨hle, hlt⟩ := (below_iff hid).mp hn
  have hsub := subtree?_add hid (k := n - id) (by omega)
  rw [show id + (n - id) = n by omega, hu] at hsub
  exact List.mem_of_getElem? hsub.symm

/-- Declarations stand in blocks, by the links of the nodes. -/
def declaresInBlocks (t : Tree) : Bool :=
  (List.range t.size).all fun n => t.arena.kind? n != some .localDeclaration ||
    (t.arena.parent? n).bind t.arena.kind? == some .block

/-- If declarations stand in blocks, every node is tidy. -/
theorem tidy_of_declaresInBlocks (h : root.declaresInBlocks = true) (id : Nat) : root.Tidy id := by
  intro n s _ hs hkind
  have hn : n < root.size := by
    rw [← length_subtrees]
    exact (List.getElem?_eq_some_iff.mp hs).1
  have hblock := List.all_eq_true.mp h n (List.mem_range.mpr hn)
  rw [Arena.kind?_arena hs, hkind, Bool.or_eq_true, beq_iff_eq, Option.bind_eq_some_iff] at hblock
  rcases hblock with hother | ⟨b, hparent, hat⟩
  · simp at hother
  · obtain ⟨u, hu⟩ := (Arena.parent?_eq_some_iff.mp hparent).exists_subtree
    rw [Arena.kind?_arena hu] at hat
    exact ⟨b, u, hparent, hu, Option.some.inj hat⟩

/-- A local has one scope. -/
theorem ScopeOf.unique {b' : Nat} (h : root.ScopeOf ℓ b) (h' : root.ScopeOf ℓ b') : b = b' := by
  cases h with
  | block declared stated here hkind stands =>
      cases h' with
      | block declared' stated' here' hkind' stands' => simp_all
      | loop declared' started here' hkind' => simp_all
  | loop declared started here hkind =>
      cases h' with
      | block declared' stated here' hkind' stands => simp_all
      | loop declared' started' here' hkind' => simp_all

/-- A local is below its scope. -/
theorem ScopeOf.below (h : root.ScopeOf ℓ b) : root.Below b ℓ := by
  cases h with
  | block declared stated _ _ stands =>
      rw [Arena.parent?_eq_some_iff] at declared stated stands
      exact (stands.below.trans stated.below).trans declared.below
  | loop declared started _ _ =>
      rw [Arena.parent?_eq_some_iff] at declared started
      exact started.below.trans declared.below

/-- **Overlaps are found from the root down.** -/
theorem free_iff (hid : root.subtree? id = some t) : root.Free taken id ↔
    ((∀ x ℓ, root.IsLocal x ℓ id → ¬taken x) ∧
      ∀ x ℓ ℓ', root.IsLocal x ℓ id → root.IsLocal x ℓ' id → ℓ = ℓ') ∧
    ∀ k, root.arena.IsChild id k → root.Free (fun x => taken x ∨ ∃ ℓ, root.IsLocal x ℓ id) k := by
  have hself := below_self hid
  constructor
  · intro h
    refine ⟨⟨fun x ℓ hℓ => h.fresh x ℓ id hℓ hself,
      fun x ℓ ℓ' hℓ hℓ' => h.apart x ℓ ℓ' id id hℓ hℓ' hself hself⟩, ?_⟩
    intro k hk
    constructor
    · intro x ℓ b hℓ hb htaken
      have hbelow := hk.below.trans hb
      rcases htaken with htaken | ⟨ℓ', hℓ'⟩
      · exact h.fresh x ℓ b hℓ hbelow htaken
      · -- A local has one scope, so one whose scope is the node is another.
        obtain rfl := h.apart x ℓ' ℓ id b hℓ' hℓ hself hbelow
        obtain rfl := hℓ.scope.unique hℓ'.scope
        obtain ⟨ls, u, rs, -, rfl⟩ := (Arena.isChild_iff hid).mp hk
        obtain ⟨-, -, hle, -⟩ := hb
        omega
    · intro x ℓ ℓ' b b' hℓ hℓ' hb
      exact h.apart x ℓ ℓ' b b' hℓ hℓ' (hk.below.trans hb)
  · intro ⟨⟨hfresh, hone⟩, hparts⟩
    constructor
    · intro x ℓ b hℓ hb htaken
      rcases below_cases hid hb with rfl | ⟨k, hk, hb⟩
      · exact hfresh x ℓ hℓ htaken
      · exact (hparts k hk).fresh x ℓ b hℓ hb (.inl htaken)
    · intro x ℓ ℓ' b b' hℓ hℓ' hb hb'
      rcases below_cases hid hb with rfl | ⟨k, hk, hb⟩
      · rcases below_cases hid hb' with rfl | ⟨k, hk, hb'⟩
        · exact hone x ℓ ℓ' hℓ hℓ'
        · exact absurd (.inr ⟨ℓ, hℓ⟩) ((hparts k hk).fresh x ℓ' b' hℓ' hb')
      · exact (hparts k hk).apart x ℓ ℓ' b b' hℓ hℓ' hb hb'

/-- There are no scopes where no statement declares locals. -/
theorem free_of_forall (hid : root.subtree? id = some t)
    (h : ∀ u ∈ t.subtrees, u.kind.declaresLocals = false) (taken : String → Prop) :
    root.Free taken id := by
  have hnone : ∀ x ℓ b, root.IsLocal x ℓ b → ¬root.Below id b := by
    intro x ℓ b hℓ hb
    cases hℓ.scope with
    | block _ _ here hkind stands =>
        have hchild := Arena.parent?_eq_some_iff.mp stands
        have hnot := h _ (mem_subtrees_of_below hid (hb.trans hchild.below) here)
        rw [hkind] at hnot
        cases hnot
    | loop _ _ here hkind =>
        have hnot := h _ (mem_subtrees_of_below hid hb here)
        rw [hkind] at hnot
        cases hnot
  exact ⟨fun x ℓ b hℓ hb => absurd hb (hnone x ℓ b hℓ),
    fun x ℓ _ b _ hℓ _ hb => absurd hb (hnone x ℓ b hℓ)⟩

/-- What holds no statements is free of overlaps. -/
theorem free_of_conforms (hid : root.subtree? id = some t) {s : Symbol} (h : Conforms s t)
    (hs : s.holdsStatements = false) (taken : String → Prop) : root.Free taken id :=
  free_of_forall hid (h.declaresLocals_eq_false hs) taken

/-- A declaration in a tidy tree is the child of a block. -/
theorem Tidy.block (htidy : root.Tidy id) (h : root.ChildAt id n u)
    (hkind : u.kind = .localDeclaration) (hid : root.subtree? id = some t) : t.kind = .block := by
  obtain ⟨b, v, hparent, hv, hblock⟩ := htidy n u h.below h.here hkind
  obtain rfl := Option.some.inj (h.parent.symm.trans hparent)
  rwa [Option.some.inj (hid.symm.trans hv)]

/-- In a tidy tree only blocks have declarations for children. -/
theorem Tidy.ne_declaration {d : Node} {cs : List Tree} (htidy : root.Tidy id)
    (hid : root.subtree? id = some (.node d cs)) (hblock : d.kind ≠ .block)
    (h : root.ChildAt id n u) : u.kind ≠ .localDeclaration := fun hkind =>
  hblock (htidy.block h hkind hid)

/-- The scope of a local of a tidy tree is a block or a loop. -/
theorem ScopeOf.kind (h : root.ScopeOf ℓ b) (htidy : root.Tidy b)
    (hid : root.subtree? b = some t) : t.kind = .block ∨ t.kind = .forStatement := by
  cases h with
  | block _ _ here hkind stands => exact .inl (htidy.block ⟨here, stands⟩ hkind hid)
  | loop _ _ here hkind =>
      obtain rfl := Option.some.inj (hid.symm.trans here)
      exact .inr hkind

/-- A node that is no scope is free of overlaps if its children are. -/
theorem free_other (hid : root.subtree? id = some t) (htidy : root.Tidy id)
    (hblock : t.kind ≠ .block) (hloop : t.kind ≠ .forStatement) :
    root.Free taken id ↔ ∀ k, root.arena.IsChild id k → root.Free taken k := by
  have hnone : ∀ x ℓ, ¬root.IsLocal x ℓ id := by
    intro x ℓ hℓ
    rcases hℓ.scope.kind htidy hid with hkind | hkind
    · exact hblock hkind
    · exact hloop hkind
  rw [free_iff hid]
  simp [hnone]

end Tree

open SharpMutants.Tree Execution

/-! ## The locals of a scope -/

namespace Check

variable {root t init cond step body : Tree} {d : Node} {cs : List Tree} {id n b ℓ : Nat}
  {x : String}

/-- The locals that the statements of a block declare themselves. -/
def direct (ds : List (Nat × Tree)) : List (String × Nat) :=
  ds.flatMap fun e => if e.2.kind = .localDeclaration then locals e.1 e.2 else []

/-- The names that a tree declares if it is a declaration. -/
def declarationNames (t : Tree) : List String :=
  match t.kind with
  | .variableDeclaration _ => declaratorNames t.children
  | _ => []

/-- A statement that is a declaration has the declaration for its only child. -/
theorem Statement.exists_declaration (h : Statement t) (hkind : t.kind = .localDeclaration) :
    ∃ d v, t = .node d [v] ∧ d.kind = .localDeclaration ∧ Conforms .variableDeclaration v := by
  cases h with
  | @declaration d v hd part => exact ⟨d, v, rfl, hd, part⟩
  | block hd | expression hd | empty hd | returnNothing hd | returnValue hd | ifThen hd
  | ifElse hd | whileLoop hd | forLoop hd =>
      rw [Tree.kind, Tree.root, hd] at hkind
      cases hkind

/-- The names of declared locals are those of their declarators. -/
theorem map_fst_declared (ds : List (Nat × Tree)) :
    (declared ds).map Prod.fst = declaratorNames (ds.map Prod.snd) := by
  induction ds with
  | nil => rfl
  | cons e ds ih =>
      obtain ⟨n, t⟩ := e
      by_cases hkind : ∃ name, t.kind = .variableDeclarator name
      · obtain ⟨name, hname⟩ := hkind
        rw [declared_declarator hname, List.map_cons, List.map_cons,
          declaratorNames_declarator hname, ih]
      · have hother : ∀ name, t.kind ≠ .variableDeclarator name := fun name hname =>
          hkind ⟨name, hname⟩
        rw [declared_other hother, List.map_cons, declaratorNames_other hother, ih]

/-- The names that a declaration declares are those of its declarators. -/
theorem map_fst_declarators (id : Nat) (t : Tree) :
    (declared (Execution.declarators id t)).map Prod.fst = declarationNames t := by
  rw [map_fst_declared, Execution.declarators, declarationNames]
  cases t.kind with
  | variableDeclaration type => exact congrArg declaratorNames (map_snd_numberFrom _ _)
  | _ => rfl

/-- The names that stand in a block are those its statements declare. -/
theorem map_fst_direct (hcs : ∀ c ∈ cs, Statement c) (id : Nat) :
    (direct (numberFrom id cs)).map Prod.fst = declaredNames cs := by
  induction cs generalizing id with
  | nil => rfl
  | cons c cs ih =>
      rw [List.forall_mem_cons] at hcs
      have hlater := ih hcs.2 (id + c.size)
      rw [direct, declaredNames] at hlater ⊢
      rw [numberFrom_cons, List.flatMap_cons, List.map_append, hlater, List.flatMap_cons]
      congr 1
      by_cases hlocal : c.kind = .localDeclaration
      · obtain ⟨d, v, rfl, hkind, part⟩ := hcs.1.exists_declaration hlocal
        obtain ⟨type, htype, -⟩ := part.declaration
        rw [if_pos hlocal, locals_declaration hkind, map_fst_declarators, declarationNames, htype]
        simp only [hlocal, Tree.children]
      · rw [if_neg hlocal, List.map_nil]
        split
        · exact absurd ‹_› hlocal
        · rfl

/-- The locals of a list in which no node stands twice differ in their names if no name has
two nodes. -/
theorem nodup_map_fst_iff {ls : List (String × Nat)} (h : (ls.map Prod.snd).Nodup) :
    (ls.map Prod.fst).Nodup ↔ ∀ x ℓ ℓ', (x, ℓ) ∈ ls → (x, ℓ') ∈ ls → ℓ = ℓ' := by
  rw [List.nodup_map_iff_inj_on h.of_map]
  constructor
  · intro hinj x ℓ ℓ' hℓ hℓ'
    exact congrArg Prod.snd (hinj (x, ℓ) hℓ (x, ℓ') hℓ' rfl)
  · rintro hone ⟨x, ℓ⟩ hℓ ⟨x', ℓ'⟩ hℓ' rfl
    rw [hone x ℓ ℓ' hℓ hℓ']

/-- Locals stand at the declarators that declare them. -/
theorem declared_sublist (ds : List (Nat × Tree)) :
    ((declared ds).map Prod.snd).Sublist (ds.map Prod.fst) := by
  induction ds with
  | nil => exact .slnil
  | cons e ds ih =>
      obtain ⟨n, t⟩ := e
      by_cases hkind : ∃ name, t.kind = .variableDeclarator name
      · obtain ⟨name, hname⟩ := hkind
        rw [declared_declarator hname, List.map_cons, List.map_cons]
        exact ih.cons_cons n
      · rw [declared_other fun name hname => hkind ⟨name, hname⟩, List.map_cons]
        exact ih.cons n

/-- The children of a node have different numbers. -/
theorem nodup_numbersFrom (id : Nat) (cs : List Tree) : (numbersFrom id cs).Nodup :=
  (pairwise_numbersFrom id cs).2.imp Nat.ne_of_lt

/-- No declarator declares two locals. -/
theorem nodup_declarators (id : Nat) (t : Tree) :
    ((declared (Execution.declarators id t)).map Prod.snd).Nodup := by
  refine List.Nodup.sublist (declared_sublist _) ?_
  rw [Execution.declarators]
  split
  · exact nodup_numbersFrom (id + 1) t.children
  · exact .nil

/-- The locals of a block stand at different nodes. -/
theorem nodup_direct (hid : root.subtree? id = some (.node d cs)) (hcs : ∀ c ∈ cs, Statement c) :
    ((direct (numberFrom (id + 1) cs)).map Prod.snd).Nodup := by
  have hbelow : ∀ e ∈ numberFrom (id + 1) cs, ∀ ℓ, ℓ ∈ (if e.2.kind = .localDeclaration then
      locals e.1 e.2 else []).map Prod.snd → root.arena.IsChild id e.1 ∧ root.Below e.1 ℓ := by
    intro e he ℓ hℓ
    obtain ⟨⟨x, ℓ⟩, hlocal, rfl⟩ := List.mem_map.mp hℓ
    have hchild := (childAt_iff hid).mpr he
    split at hlocal
    · have hadded := addedBy_of_mem_locals (hcs e.2 (hchild.mem hid)) hchild.here hlocal
      exact ⟨Arena.parent?_eq_some_iff.mp hchild.parent, hadded.below⟩
    · cases hlocal
  rw [direct, List.map_flatMap, List.nodup_flatMap]
  constructor
  · intro e he
    have hchild := (childAt_iff hid).mpr he
    split
    · rename_i hlocal
      obtain ⟨d, v, hv, hkind, -⟩ := (hcs e.2 (hchild.mem hid)).exists_declaration hlocal
      rw [hv, locals_declaration hkind]
      exact nodup_declarators _ v
    · exact .nil
  · have hapart := List.pairwise_map.mp (nodup_numbersFrom (id + 1) cs)
    refine hapart.imp_of_mem ?_
    intro e e' he he' hne ℓ hℓ hℓ'
    obtain ⟨hchild, hℓ⟩ := hbelow e he ℓ hℓ
    obtain ⟨hchild', hℓ'⟩ := hbelow e' he' ℓ hℓ'
    exact hne (eq_of_below_children hchild hchild' hℓ hℓ')

/-- A declarator is where the local is declared that a declaration at a node declares. -/
theorem mem_declared_iff (hroot : root.Grammatical) {t : Tree} (hid : root.subtree? n = some t) :
    (x, ℓ) ∈ declared (Execution.declarators n t) ↔
      root.DeclaresName ℓ x ∧ root.arena.parent? ℓ = some n := by
  rw [mem_declared]
  constructor
  · intro h
    obtain ⟨u, hu, hkind⟩ := h
    have hchild := mem_declarators hid hu
    exact ⟨⟨u, hchild.here, hkind⟩, hchild.parent⟩
  · intro h
    obtain ⟨⟨u, hu, hkind⟩, hparent⟩ := h
    have hchild : root.ChildAt n ℓ u := ⟨hu, hparent⟩
    obtain ⟨s, hconforms⟩ := hroot.of_mem_subtrees (List.mem_of_getElem? hid)
    obtain ⟨type, htype⟩ := hconforms.kind_of_declarator (hchild.mem hid) hkind
    refine ⟨u, ?_, hkind⟩
    rw [Execution.declarators, htype]
    exact (childAt_iff hid).mp hchild

/-- The locals of a block are those that its statements declare. -/
theorem isLocal_block (hroot : root.Grammatical) (hid : root.subtree? id = some (.node d cs))
    (hkind : d.kind = .block) (hcs : ∀ c ∈ cs, Statement c) :
    root.IsLocal x ℓ id ↔ (x, ℓ) ∈ direct (numberFrom (id + 1) cs) := by
  rw [direct, List.mem_flatMap]
  constructor
  · intro h
    cases h.scope with
    | @block declaration statement _ s declared stated here hlocal stands =>
        have hchild : root.ChildAt id statement s := ⟨here, stands⟩
        refine ⟨(statement, s), (childAt_iff hid).mp hchild, ?_⟩
        rw [if_pos hlocal]
        obtain ⟨e, v, rfl, he, -⟩ := (hcs s (hchild.mem hid)).exists_declaration hlocal
        obtain ⟨u, hu⟩ := exists_childAt stated
        have hmem := (childAt_iff here).mp hu
        rw [Tree.children, numberFrom_cons, numberFrom_nil, List.mem_singleton] at hmem
        obtain ⟨rfl, rfl⟩ := Prod.mk.inj hmem
        rw [locals_declaration he]
        exact (mem_declared_iff hroot hu.here).mpr ⟨h.declares, declared⟩
    | loop _ _ here hloop =>
        obtain rfl := Option.some.inj (hid.symm.trans here)
        rw [Tree.kind, Tree.root, hkind] at hloop
        cases hloop
  · intro h
    obtain ⟨⟨n, s⟩, hs, hℓ⟩ := h
    have hchild := (childAt_iff hid).mpr hs
    dsimp only at hℓ
    split at hℓ
    · rename_i hlocal
      obtain ⟨e, v, rfl, he, -⟩ := (hcs s (hchild.mem hid)).exists_declaration hlocal
      rw [locals_declaration he] at hℓ
      have hv := childAt hchild.here [] rfl
      obtain ⟨hdeclares, hparent⟩ := (mem_declared_iff hroot hv.here).mp hℓ
      exact ⟨hdeclares, .block hparent hv.parent hchild.here hlocal hchild.parent⟩
    · cases hℓ

/-- The locals of a `for` are those that its initializer declares. -/
theorem isLocal_for (hroot : root.Grammatical)
    (hid : root.subtree? id = some (.node d [init, cond, step, body]))
    (hkind : d.kind = .forStatement) (htest : Conforms (.expression 0) cond)
    (hnext : Conforms (.expression 0) step) (hbody : Statement body) (htidy : root.Tidy id) :
    root.IsLocal x ℓ id ↔ (x, ℓ) ∈ declared (Execution.declarators (id + 1) init) := by
  have hinit : root.ChildAt id (id + 1) init := childAt hid [] rfl
  rw [mem_declared_iff hroot hinit.here]
  constructor
  · intro h
    cases h.scope with
    | block _ _ here hlocal stands =>
        have hblock := htidy.block ⟨here, stands⟩ hlocal hid
        rw [Tree.kind, Tree.root, hkind] at hblock
        cases hblock
    | @loop declaration _ _ declared started _ _ =>
        obtain ⟨v, hv⟩ := exists_childAt started
        obtain ⟨u, hu, hdeclares⟩ := h.declares
        obtain ⟨sym, hconforms⟩ := hroot.of_mem_subtrees (List.mem_of_getElem? hv.here)
        have hchild : root.ChildAt declaration ℓ u := ⟨hu, declared⟩
        obtain ⟨type, htype⟩ := hconforms.kind_of_declarator (hchild.mem hv.here) hdeclares
        have hmem := (childAt_iff hid).mp hv
        simp only [Tree.children, numberFrom_cons, numberFrom_nil, List.mem_cons, Prod.mk.injEq,
          List.not_mem_nil, or_false] at hmem
        rcases hmem with ⟨rfl, rfl⟩ | ⟨-, rfl⟩ | ⟨-, rfl⟩ | ⟨-, rfl⟩
        · exact ⟨h.declares, declared⟩
        · exact absurd htype (htest.kind_ne_variableDeclaration type)
        · exact absurd htype (hnext.kind_ne_variableDeclaration type)
        · cases hbody <;> simp_all [Tree.kind, Tree.root]
  · intro h
    exact ⟨h.1, .loop h.2 hinit.parent hid hkind⟩

/-! ## Overlaps in statements -/

section Statements

variable {taken : String → Prop} {branch other : Tree} {e : Node}

/-- What holds of all children of a node holds of each in the list. -/
theorem forall_isChild_iff (hid : root.subtree? id = some (.node d cs)) {P : Nat → Prop} :
    (∀ k, root.arena.IsChild id k → P k) ↔ ∀ e ∈ numberFrom (id + 1) cs, P e.1 := by
  simp only [Arena.IsChild, Arena.childrenOf_arena hid, numbersFrom, List.forall_mem_map,
    Tree.children]

/-- Overlaps at a scope are told by the names of its locals. -/
theorem free_scope (hid : root.subtree? id = some t) {ls : List (String × Nat)}
    (hls : ∀ x ℓ, root.IsLocal x ℓ id ↔ (x, ℓ) ∈ ls) (hnodup : (ls.map Prod.snd).Nodup) :
    root.Free taken id ↔ ((ls.map Prod.fst).Nodup ∧ ∀ x ∈ ls.map Prod.fst, ¬taken x) ∧
      ∀ k, root.arena.IsChild id k → root.Free (fun x => taken x ∨ x ∈ ls.map Prod.fst) k := by
  rw [free_iff hid, nodup_map_fst_iff hnodup, and_comm (a := ∀ x ℓ ℓ', (x, ℓ) ∈ ls → _)]
  simp only [hls, List.mem_map, Prod.exists, exists_and_right, exists_eq_right, forall_exists_index]

/-- **A block has no overlaps** if its names are fresh and its statements have none under them. -/
theorem free_block (hroot : root.Grammatical) (hid : root.subtree? id = some (.node d cs))
    (hkind : d.kind = .block) (hcs : ∀ c ∈ cs, Statement c) : root.Free taken id ↔
      ((declaredNames cs).Nodup ∧ ∀ x ∈ declaredNames cs, ¬taken x) ∧
        ∀ e ∈ numberFrom (id + 1) cs,
          root.Free (fun x => taken x ∨ x ∈ declaredNames cs) e.1 := by
  rw [free_scope hid (fun x ℓ => isLocal_block hroot hid hkind hcs) (nodup_direct hid hcs),
    map_fst_direct hcs, forall_isChild_iff hid]

/-- **A `for` has no overlaps** if its names are fresh and its parts have none under them. -/
theorem free_for (hroot : root.Grammatical)
    (hid : root.subtree? id = some (.node d [init, cond, step, body]))
    (hkind : d.kind = .forStatement)
    (hstart : Conforms .variableDeclaration init ∨ Conforms (.expression 0) init)
    (htest : Conforms (.expression 0) cond) (hnext : Conforms (.expression 0) step)
    (hbody : Statement body) (htidy : root.Tidy id) : root.Free taken id ↔
      ((declarationNames init).Nodup ∧ ∀ x ∈ declarationNames init, ¬taken x) ∧
        root.Free (fun x => taken x ∨ x ∈ declarationNames init)
          (id + 1 + init.size + cond.size + step.size) := by
  have hinit : ∀ taken, root.Free taken (id + 1) := by
    have hhere := (childAt hid [] rfl).here
    rcases hstart with hstart | hstart
    · exact free_of_conforms hhere hstart rfl
    · exact free_of_conforms hhere hstart rfl
  have hcond : ∀ taken, root.Free taken (id + 1 + init.size) := by
    have hhere : root.subtree? (id + 1 + init.size) = some cond :=
      subtree?_of_mem_numberFrom hid (by simp [Tree.children, numberFrom_cons])
    exact free_of_conforms hhere htest rfl
  have hstep : ∀ taken, root.Free taken (id + 1 + init.size + cond.size) := by
    have hhere : root.subtree? (id + 1 + init.size + cond.size) = some step :=
      subtree?_of_mem_numberFrom hid (by simp [Tree.children, numberFrom_cons])
    exact free_of_conforms hhere hnext rfl
  rw [free_scope hid (fun x ℓ => isLocal_for hroot hid hkind htest hnext hbody htidy)
    (nodup_declarators (id + 1) init), map_fst_declarators, forall_isChild_iff hid]
  simp [numberFrom_cons, numberFrom_nil, hinit, hcond, hstep]

/-- A statement that has no statement in it is free of overlaps. -/
theorem free_simple (hid : root.subtree? id = some (.node d cs)) (hblock : d.kind ≠ .block)
    (hloop : d.kind ≠ .forStatement)
    (hcs : ∀ c ∈ cs, ∃ s : Symbol, s.holdsStatements = false ∧ Conforms s c)
    (htidy : root.Tidy id) : root.Free taken id := by
  rw [free_other hid htidy hblock hloop, forall_isChild_iff hid]
  intro e he
  have hchild := (childAt_iff hid).mpr he
  obtain ⟨s, hs, part⟩ := hcs e.2 (hchild.mem hid)
  exact free_of_conforms hchild.here part hs taken

/-- Overlaps in a branch or a loop of one part. -/
theorem free_branch (hid : root.subtree? id = some (.node d [cond, body]))
    (hblock : d.kind ≠ .block) (hloop : d.kind ≠ .forStatement)
    (htest : Conforms (.expression 0) cond) (htidy : root.Tidy id) :
    root.Free taken id ↔ root.Free taken (id + 1 + cond.size) := by
  have hcond : root.Free taken (id + 1) :=
    free_of_conforms (childAt hid [] rfl).here htest rfl taken
  rw [free_other hid htidy hblock hloop, forall_isChild_iff hid]
  simp [numberFrom_cons, numberFrom_nil, hcond]

/-- An `if` with two branches has no overlaps if neither branch has. -/
theorem free_ifElse (hid : root.subtree? id = some (.node d [cond, body, .node e [other]]))
    (hkind : d.kind = .ifStatement) (helse : e.kind = .elseClause)
    (htest : Conforms (.expression 0) cond) (htidy : root.Tidy id) :
    root.Free taken id ↔ root.Free taken (id + 1 + cond.size) ∧
      root.Free taken (id + 1 + cond.size + body.size + 1) := by
  have hcond : root.Free taken (id + 1) :=
    free_of_conforms (childAt hid [] rfl).here htest rfl taken
  have hclause := childAt_else hid
  have hother : root.Free taken (id + 1 + cond.size + body.size) ↔
      root.Free taken (id + 1 + cond.size + body.size + 1) := by
    rw [free_other hclause.here (htidy.of_below hclause.below)
      (by simp [Tree.kind, Tree.root, helse]) (by simp [Tree.kind, Tree.root, helse]),
      forall_isChild_iff hclause.here]
    simp [numberFrom_cons, numberFrom_nil]
  rw [free_other hid htidy (by simp [Tree.kind, Tree.root, hkind])
    (by simp [Tree.kind, Tree.root, hkind]), forall_isChild_iff hid]
  simp [numberFrom_cons, numberFrom_nil, hcond, hother]

end Statements

/-! ## Locals of a method -/

section Methods

variable {s : Tree} {m : Nat}

/-- The body of a method is its only child that is not a parameter. -/
theorem childAt_body_or_leaf {sym : Symbol} (hm : root.subtree? m = some s) (h : Conforms sym s)
    (hmethod : s.kind.isMethod = true) : ∃ id last, root.ChildAt m id last ∧
      s.children.getLast? = some last ∧ Conforms .body last ∧
      ∀ k u, root.ChildAt m k u → (k = id ∧ u = last) ∨
        (u ∈ s.children.dropLast ∧ ∃ d name type, u = .node d [] ∧
          d.kind = .parameter name type) := by
  obtain ⟨ps, last, hchildren, hps, hlast⟩ := h.exists_parameters hmethod
  refine ⟨m + 1 + sizes ps, last, childAt hm ps hchildren, ?_, hlast, ?_⟩
  · rw [hchildren, List.getLast?_concat]
  · intro k u hu
    obtain ⟨ls, v, rs, hcs, rfl⟩ :=
      (Arena.isChild_iff hm).mp (Arena.parent?_eq_some_iff.mp hu.parent)
    obtain rfl := Option.some.inj ((subtree?_child hm hcs).symm.trans hu.here)
    rw [hchildren] at hcs ⊢
    rcases List.eq_nil_or_concat rs with rfl | ⟨rs, w, rfl⟩
    · obtain ⟨rfl, heq⟩ := List.append_inj' hcs rfl
      exact .inl ⟨rfl, (List.singleton_inj.mp heq).symm⟩
    · rw [List.concat_eq_append, ← List.cons_append, ← List.append_assoc] at hcs
      obtain ⟨rfl, -⟩ := List.append_inj' hcs rfl
      rw [List.dropLast_concat]
      have hmem : v ∈ ls ++ v :: rs := List.mem_append_right ls List.mem_cons_self
      exact .inr ⟨hmem, hps v hmem⟩

/-- What is below a method, and is none, has its parent below the method. -/
theorem exists_childAt_below (hm : root.subtree? m = some s) (hmethod : s.kind.isMethod = true)
    {u : Tree} (hn : root.Below m n) (hu : root.subtree? n = some u)
    (hkind : u.kind.isMethod = false) :
    ∃ p v, root.ChildAt p n u ∧ root.subtree? p = some v ∧ root.Below m p := by
  have hne : n ≠ m := by
    rintro rfl
    obtain rfl := Option.some.inj (hu.symm.trans hm)
    rw [hmethod] at hkind
    cases hkind
  obtain ⟨p, hparent, hp⟩ := exists_parent_below hn hne
  obtain ⟨v, hv⟩ := (Arena.parent?_eq_some_iff.mp hparent).exists_subtree
  exact ⟨p, v, ⟨hu, hparent⟩, hv, hp⟩

/-- **Every declarator in a method declares a local**, and the scope of that is in the method. -/
theorem exists_isLocal (hroot : root.Grammatical) (hm : root.subtree? m = some s)
    (hmethod : s.kind.isMethod = true) (hℓ : root.Below m ℓ) (h : root.DeclaresName ℓ x) :
    ∃ b, root.IsLocal x ℓ b ∧ root.Below m b := by
  obtain ⟨u, hu, hkind⟩ := h
  obtain ⟨declaration, v, hdeclarator, hv, hbelow⟩ :=
    exists_childAt_below hm hmethod hℓ hu (by rw [hkind]; rfl)
  obtain ⟨sym, hconforms⟩ := hroot.of_mem_subtrees (List.mem_of_getElem? hv)
  obtain ⟨type, htype⟩ := hconforms.kind_of_declarator (hdeclarator.mem hv) hkind
  obtain ⟨p, w, hdeclaration, hw, hbelow⟩ :=
    exists_childAt_below hm hmethod hbelow hv (by rw [htype]; rfl)
  obtain ⟨sym, hconforms⟩ := hroot.of_mem_subtrees (List.mem_of_getElem? hw)
  rcases hconforms.kind_of_declaration (hdeclaration.mem hw) htype with ⟨ms, hfield⟩ | hlocal | hfor
  · obtain ⟨sym, hconforms⟩ := hroot.of_mem_subtrees (List.mem_of_getElem? hm)
    exact absurd hfield (hconforms.ne_fieldDecl hmethod w (mem_subtrees_of_below hm hbelow hw) ms)
  · obtain ⟨b, w', hstands, -, hbelow⟩ :=
      exists_childAt_below hm hmethod hbelow hw (by rw [hlocal]; rfl)
    exact ⟨b, ⟨⟨u, hu, hkind⟩, .block hdeclarator.parent hdeclaration.parent hw hlocal
      hstands.parent⟩, hbelow⟩
  · exact ⟨p, ⟨⟨u, hu, hkind⟩, .loop hdeclarator.parent hdeclaration.parent hw hfor⟩, hbelow⟩

/-- A method is free of overlaps, with the names of its parameters taken, just if no locals in it
clash. -/
theorem free_iff_not_clash (hroot : root.Grammatical) (hm : root.subtree? m = some s)
    (hmethod : s.kind.isMethod = true) :
    root.Free (root.HasParameter m) m ↔ ¬root.Clash m := by
  constructor
  · intro h hclash
    cases hclash with
    | overlap first second hℓ hℓ' different inside =>
        obtain ⟨b, hlocal, hb⟩ := exists_isLocal hroot hm hmethod hℓ first.declares
        obtain rfl := hlocal.scope.unique first.scope
        exact different (h.apart _ _ _ _ _ first second hb inside)
    | parameter declares hℓ bound =>
        obtain ⟨b, hlocal, hb⟩ := exists_isLocal hroot hm hmethod hℓ declares
        exact h.fresh _ _ _ hlocal hb bound
  · intro h
    constructor
    · intro x ℓ b hℓ hb hbound
      exact h (.parameter hℓ.declares (hb.trans hℓ.scope.below) hbound)
    · intro x ℓ ℓ' b b' hℓ hℓ' hb hinside
      by_contra hne
      exact h (.overlap hℓ hℓ' (hb.trans hℓ.scope.below)
        ((hb.trans hinside).trans hℓ'.scope.below) hne hinside)

/-- Overlaps in a method are overlaps in its body, and its parameters are its other children. -/
theorem exists_body_free (hm : root.subtree? m = some s) {sym : Symbol} (h : Conforms sym s)
    (hmethod : s.kind.isMethod = true) (htidy : root.Tidy m) :
    ∃ id last, root.ChildAt m id last ∧ s.children.getLast? = some last ∧ Conforms .body last ∧
      (∀ taken, root.Free taken m ↔ root.Free taken id) ∧
      ∀ x, root.HasParameter m x ↔
        ∃ p ∈ s.children.dropLast, ∃ type, p.kind = .parameter x type := by
  obtain ⟨id, last, hid, hgetLast, hlast, hchildren⟩ := childAt_body_or_leaf hm h hmethod
  refine ⟨id, last, hid, hgetLast, hlast, ?_, ?_⟩
  · intro taken
    rw [free_other hm htidy (by intro hkind; rw [hkind] at hmethod; cases hmethod)
      (by intro hkind; rw [hkind] at hmethod; cases hmethod)]
    constructor
    · intro hparts
      exact hparts id (Arena.parent?_eq_some_iff.mp hid.parent)
    · intro hbody k hk
      obtain ⟨u, hu⟩ := exists_childAt (Arena.parent?_eq_some_iff.mpr hk)
      rcases hchildren k u hu with ⟨rfl, -⟩ | ⟨-, d, name, type, rfl, hkind⟩
      · exact hbody
      · refine free_of_forall hu.here ?_ taken
        intro w hw
        rw [subtrees_node, subtreesOf_nil, List.mem_singleton] at hw
        rw [hw, Tree.kind, Tree.root, hkind]
        rfl
  · intro x
    constructor
    · intro hx
      obtain ⟨n, u, type, hu, hkind⟩ := hx
      rcases hchildren n u hu with ⟨-, rfl⟩ | ⟨hmem, -⟩
      · rw [hlast.kind_body] at hkind
        cases hkind
      · exact ⟨u, hmem, type, hkind⟩
    · intro hx
      obtain ⟨u, hu, type, hkind⟩ := hx
      obtain ⟨n, hn⟩ := exists_childAt_of_mem hm (List.mem_of_mem_dropLast hu)
      exact ⟨n, u, type, hn, hkind⟩

end Methods

end Check
end SharpMutants
