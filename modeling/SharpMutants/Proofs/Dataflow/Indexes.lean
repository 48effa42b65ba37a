import SharpMutants.Proofs.Dataflow.Paths

/-!
# The indexes of a method

The steps of a statement, each with all the nodes below it, come one after another
(`Apart`).  So a node is below one step at most (`Apart.eq_of_below`), and the two indexes
of a method are exact: that of the identifiers knows the step that an identifier is below
(`MethodFlow.getElem?_useIndex`), and that of the definitions knows the step that makes a
definition (`MethodFlow.getElem?_definitionIndex`).
-/

namespace SharpMutants

/-! ## Tables of entries -/

namespace Table

variable {α : Type}

/-- The table of some entries. -/
def ofEntries (es : List (Nat × α)) : Table α := es.foldl (fun t e => t.insert e.1 e.2) ∅

/-- A table of entries that agree on each key has the values of the entries. -/
theorem getElem?_foldl_entries {es : List (Nat × α)} {i : Nat} {v : α} (t : Table α)
    (hkeys : ∀ w, (i, w) ∈ es → ∀ w', (i, w') ∈ es → w = w') :
    (es.foldl (fun t e => t.insert e.1 e.2) t)[i]? = some v ↔
      (i, v) ∈ es ∨ (t[i]? = some v ∧ ∀ w, (i, w) ∉ es) := by
  induction es generalizing t with
  | nil => simp
  | cons e es ih =>
      obtain ⟨j, u⟩ := e
      have hrest : ∀ w, (i, w) ∈ es → ∀ w', (i, w') ∈ es → w = w' := by
        intro w hw w' hw'
        exact hkeys w (List.mem_cons_of_mem _ hw) w' (List.mem_cons_of_mem _ hw')
      rw [List.foldl_cons, ih _ hrest, Std.TreeMap.getElem?_insert]
      by_cases hj : j = i
      · subst hj
        have hsame : ∀ w, (j, w) ∈ es → w = u := by
          intro w hw
          exact hkeys w (List.mem_cons_of_mem _ hw) u List.mem_cons_self
        grind
      · grind

/-- **A table of entries** has just the entries, if none of them are for one number. -/
theorem getElem?_ofEntries {es : List (Nat × α)} {i : Nat} {v : α}
    (hkeys : ∀ w, (i, w) ∈ es → ∀ w', (i, w') ∈ es → w = w') :
    (ofEntries es)[i]? = some v ↔ (i, v) ∈ es := by
  rw [ofEntries, getElem?_foldl_entries _ hkeys]
  simp

end Table

/-! ## Below a node -/

namespace Tree

/-- A node is another one or below it. -/
def Below (t : Tree) (n i : Nat) : Prop := ∃ s, t.subtree? n = some s ∧ n ≤ i ∧ i < n + s.size

variable {t s : Tree} {n i : Nat}

/-- A node is below itself. -/
theorem below_self (h : t.subtree? n = some s) : t.Below n n := by
  have := Steps.size_pos s
  exact ⟨s, h, Nat.le_refl n, by omega⟩

/-- The nodes below one have the numbers of its subtree. -/
theorem below_iff (h : t.subtree? n = some s) : t.Below n i ↔ n ≤ i ∧ i < n + s.size := by
  constructor
  · intro hbelow
    obtain ⟨u, hu, hrange⟩ := hbelow
    obtain rfl := Option.some.inj (h.symm.trans hu)
    exact hrange
  · intro hrange
    exact ⟨s, h, hrange⟩

/-- The children of a node are the subtrees at their numbers. -/
theorem subtree?_children {d : Node} {cs : List Tree} (h : t.subtree? n = some (.node d cs)) :
    (numberFrom (n + 1) cs).Forall fun e => t.subtree? e.1 = some e.2 := by
  rw [List.forall_iff_forall_mem]
  intro e he
  exact subtree?_of_mem_numberFrom h he

/-- What is below a node is in its subtree. -/
theorem subtree?_add (h : t.subtree? n = some s) {k : Nat} (hk : k < s.size) :
    t.subtree? (n + k) = s.subtree? k := getElem?_subtrees_add n t s h k hk

/-- A subtree of a subtree is one of the whole tree. -/
theorem subtree?_trans {k : Nat} {u : Tree} (h : t.subtree? n = some s)
    (hu : s.subtree? k = some u) : t.subtree? (n + k) = some u ∧ n + k + u.size ≤ n + s.size := by
  have hle : k + u.size ≤ s.size := add_size_le k s u hu
  have := Steps.size_pos u
  rw [subtree?_add h (by omega)]
  exact ⟨hu, by omega⟩

/-- What is below a node below another is below that. -/
theorem Below.trans {k : Nat} (h : t.Below n k) (hk : t.Below k i) : t.Below n i := by
  obtain ⟨s, hs, hle, hlt⟩ := h
  obtain ⟨u, hu, hle', hlt'⟩ := hk
  have hsub : s.subtree? (k - n) = some u := by
    rw [← subtree?_add hs (by omega), show n + (k - n) = k by omega]
    exact hu
  have hwithin := (subtree?_trans hs hsub).2
  exact ⟨s, hs, by omega, by omega⟩

end Tree

/-! ## Steps -/

namespace Steps

/-- Nodes of a tree, each with all that is below it, come one after another between two
numbers. -/
inductive Apart (t : Tree) : Nat → List Nat → Nat → Prop
  | nil {first stop : Nat} (hle : first ≤ stop) : Apart t first [] stop
  | cons {first n stop : Nat} {ns : List Nat} {s : Tree} (hle : first ≤ n)
      (hs : t.subtree? n = some s) (rest : Apart t (n + s.size) ns stop) :
      Apart t first (n :: ns) stop

namespace Apart

variable {t : Tree} {first stop n m i : Nat} {ns ms : List Nat}

/-- Nodes that come one after another between two numbers do so between wider ones. -/
theorem widen {first' stop' : Nat} (h : Apart t first ns stop) (hfirst : first' ≤ first)
    (hstop : stop ≤ stop') : Apart t first' ns stop' := by
  induction h generalizing first' with
  | nil hle => exact .nil (by omega)
  | cons hle hs _ ih => exact .cons (by omega) hs (ih (Nat.le_refl _) hstop)

/-- Nodes that come one after another continue with nodes that come after them. -/
theorem append {middle : Nat} (h : Apart t first ns middle) (h' : Apart t middle ms stop) :
    Apart t first (ns ++ ms) stop := by
  induction h with
  | nil hle => exact h'.widen hle (Nat.le_refl stop)
  | cons hle hs _ ih => exact .cons hle hs (ih h')

/-- One node comes with all that is below it. -/
theorem one {s : Tree} (hs : t.subtree? n = some s) : Apart t n [n] (n + s.size) :=
  .cons (Nat.le_refl n) hs (.nil (Nat.le_refl _))

/-- The nodes are in the tree, between the two numbers. -/
theorem exists_subtree (h : Apart t first ns stop) (hn : n ∈ ns) :
    first ≤ n ∧ ∃ s, t.subtree? n = some s := by
  induction h with
  | nil _ => cases hn
  | @cons first k stop ns s hle hs rest ih =>
      rcases List.mem_cons.mp hn with rfl | hn
      · exact ⟨hle, s, hs⟩
      · obtain ⟨hlater, hsubtree⟩ := ih hn
        exact ⟨by omega, hsubtree⟩

/-- **A node is below one of them** at most. -/
theorem eq_of_below (h : Apart t first ns stop) (hn : n ∈ ns) (hm : m ∈ ns) (hni : t.Below n i)
    (hmi : t.Below m i) : n = m := by
  induction h with
  | nil _ => cases hn
  | @cons first k stop ns s hle hs rest ih =>
      -- What is below the first of them is before the others.
      have hbefore : t.Below k i → ∀ j ∈ ns, ¬t.Below j i := by
        intro hki j hj hji
        have hlater := (rest.exists_subtree hj).1
        have hlt := ((Tree.below_iff hs).mp hki).2
        obtain ⟨-, -, hle', -⟩ := hji
        omega
      rcases List.mem_cons.mp hn with rfl | hn'
      · rcases List.mem_cons.mp hm with rfl | hm'
        · rfl
        · exact absurd hmi (hbefore hni m hm')
      · rcases List.mem_cons.mp hm with rfl | hm'
        · exact absurd hni (hbefore hmi n hn')
        · exact ih hn' hm'

end Apart

variable {t body : Tree} {id : Nat}

/-- The steps of statements in a row come one after another, if those of each do. -/
theorem apart_stepsOf {cs : List Tree}
    (hcs : ∀ c ∈ cs, ∀ n, t.subtree? n = some c → Apart t n (steps n c) (n + c.size))
    (hnumbers : ∀ n c, (n, c) ∈ Tree.numberFrom id cs → t.subtree? n = some c) :
    Apart t id (stepsOf id cs) (id + Tree.sizes cs) := by
  induction cs generalizing id with
  | nil =>
      rw [stepsOf_nil]
      exact .nil (Nat.le_add_right _ _)
  | cons c cs ih =>
      simp only [Tree.numberFrom_cons, List.mem_cons] at hnumbers
      have hfirst := hcs c List.mem_cons_self id (hnumbers id c (.inl rfl))
      have hrest := ih (fun c hc => hcs c (List.mem_cons_of_mem _ hc))
        (fun n c hc => hnumbers n c (.inr hc))
      rw [stepsOf_cons, Tree.sizes, ← Nat.add_assoc]
      exact hfirst.append hrest

/-- **The steps of a statement** come one after another, each with all that is below it. -/
theorem Statement.apart (h : Statement body) (hid : t.subtree? id = some body) :
    Apart t id (steps id body) (id + body.size) := by
  induction h generalizing id with
  | @block d cs hkind _ ih =>
      rw [steps_block hkind, Tree.size, ← Nat.add_assoc]
      have hsteps := apart_stepsOf (fun c hc n hn => ih c hc hn)
        fun n c hc => Tree.subtree?_of_mem_numberFrom hid hc
      exact hsteps.widen (Nat.le_succ id) (Nat.le_refl _)
  | plain hkind hinert =>
      rw [steps_plain hkind hinert]
      exact .one hid
  | returns hkind hinert =>
      rw [steps_return hkind hinert]
      exact .one hid
  | @ifThen d cond body hkind hcond _ ih =>
      obtain ⟨htest, hbody⟩ := Tree.subtree?_children hid
      rw [steps_ifThen hkind hcond]
      apply Apart.cons (by omega) htest
      apply (ih hbody).widen (Nat.le_refl _)
      simp only [Tree.size, Tree.sizes]
      omega
  | @ifElse d e cond body other hkind helse hcond _ _ ihBody ihOther =>
      obtain ⟨htest, hbody, hclause⟩ := Tree.subtree?_children hid
      have hother := Tree.subtree?_children hclause
      rw [steps_ifElse hkind helse hcond]
      apply Apart.cons (by omega) htest
      apply (ihBody hbody).append
      apply (ihOther hother).widen (by omega)
      simp only [Tree.size, Tree.sizes]
      omega
  | @whileLoop d cond body hkind hcond _ ih =>
      obtain ⟨htest, hbody⟩ := Tree.subtree?_children hid
      rw [steps_while hkind hcond]
      apply Apart.cons (by omega) htest
      apply (ih hbody).widen (Nat.le_refl _)
      simp only [Tree.size, Tree.sizes]
      omega
  | @forLoop d init cond increment body hkind hinit hcond hincrement _ ih =>
      obtain ⟨hstart, htest, hnext, hbody⟩ := Tree.subtree?_children hid
      rw [steps_for hkind hinit hcond hincrement]
      apply Apart.cons (by omega) hstart
      apply Apart.cons (Nat.le_refl _) htest
      apply Apart.cons (Nat.le_refl _) hnext
      apply (ih hbody).widen (Nat.le_refl _)
      simp only [Tree.size, Tree.sizes]
      omega

end Steps

/-! ## Names below a node -/

/-- The kind of a node in the arena is that of its subtree. -/
theorem Arena.kind?_eq (t : Tree) (id : Nat) :
    t.arena.kind? id = (t.subtree? id).map Tree.kind := by
  rw [← subtree?_arena, kind?, subtree?, Option.map_map]
  rfl

namespace Tree

variable {t s : Tree} {n k : Nat} {x : Fact}

/-- A fact is about an identifier at or below a node. -/
def NameBelow (t : Tree) (n : Nat) (x : Fact) : Prop :=
  t.Below n x.site ∧ t.arena.kind? x.site = some (.identifier x.name)

/-- Identifiers below a node are below the nodes above it. -/
theorem Below.name (h : t.Below n k) (hx : t.NameBelow k x) : t.NameBelow n x :=
  hx.imp_left h.trans

/-- A child is below its parent. -/
theorem below_of_mem_numberFrom {m : Nat} {c : Tree} (h : t.subtree? n = some s)
    (hc : (m, c) ∈ numberFrom (n + 1) s.children) : t.subtree? m = some c ∧ t.Below n m := by
  obtain ⟨hle, hget⟩ := getElem?_of_mem_numberFrom hc
  have hlt : m - (n + 1) < sizes s.children := by
    rw [← length_subtreesOf]
    exact (List.getElem?_eq_some_iff.mp hget).1
  refine ⟨subtree?_of_mem_numberFrom h hc, s, h, by omega, ?_⟩
  obtain ⟨d, cs⟩ := s
  rw [children] at hlt
  rw [size]
  omega

end Tree

namespace Variables

variable {t s u : Tree} {id n site : Nat} {x : Fact}

/-- **The identifiers in a subtree** are the names below its node. -/
theorem mem_identifiersIn (h : t.subtree? n = some s) :
    x ∈ identifiersIn n s ↔ t.NameBelow n x := by
  unfold identifiersIn
  rw [List.mem_filterMap]
  constructor
  · intro hx
    obtain ⟨⟨u, m⟩, hu, hname⟩ := hx
    obtain ⟨hle, hu⟩ := List.mem_zipIdx_iff_le_and_getElem?_sub.mp hu
    dsimp only at hname
    split at hname
    · rename_i hkind
      obtain rfl := Option.some.inj hname
      dsimp only at hle hu
      obtain ⟨hsub, hwithin⟩ := Tree.subtree?_trans h hu
      have := Steps.size_pos u
      rw [show n + (m - n) = m by omega] at hsub hwithin
      refine ⟨⟨s, h, hle, by dsimp only; omega⟩, ?_⟩
      rw [Arena.kind?_eq, hsub, Option.map_some, hkind]
    · cases hname
  · intro hx
    obtain ⟨hbelow, hkind⟩ := hx
    obtain ⟨hle, hlt⟩ := (Tree.below_iff h).mp hbelow
    rw [Arena.kind?_eq, Option.map_eq_some_iff] at hkind
    obtain ⟨u, hu, hkind⟩ := hkind
    have hsub := Tree.subtree?_add h (k := x.site - n) (by omega)
    rw [show n + (x.site - n) = x.site by omega, hu] at hsub
    refine ⟨(u, x.site), List.mem_zipIdx_iff_le_and_getElem?_sub.mpr ⟨hle, hsub.symm⟩, ?_⟩
    dsimp only
    rw [hkind]

/-- The first assignment in a subtree is below its node. -/
theorem below_of_firstAssignment? (h : t.subtree? n = some s)
    (hfirst : firstAssignment? n s = some (site, u)) :
    t.subtree? site = some u ∧ t.Below n site := by
  obtain ⟨⟨v, m⟩, hv, hfound⟩ := List.exists_of_findSome?_eq_some hfirst
  obtain ⟨hle, hv⟩ := List.mem_zipIdx_iff_le_and_getElem?_sub.mp hv
  dsimp only at hfound hle hv
  split at hfound
  · obtain ⟨rfl, rfl⟩ := Prod.mk.inj (Option.some.inj hfound)
    obtain ⟨hsub, hwithin⟩ := Tree.subtree?_trans h hv
    have := Steps.size_pos v
    rw [show n + (m - n) = m by omega] at hsub hwithin
    exact ⟨hsub, s, h, hle, by omega⟩
  · cases hfound

/-- **A definition** is at or below the step that makes it. -/
theorem below_of_mem_definitionsAt (hx : x ∈ t.arena.definitionsAt n) : t.Below n x.site := by
  rw [Arena.definitionsAt, Arena.subtree?_arena] at hx
  split at hx
  · rename_i s hs
    unfold definitions at hx
    split at hx
    · rename_i site assignment hfirst
      split at hx
      · rw [FactSet.mem_ofList, List.mem_singleton] at hx
        subst hx
        exact (below_of_firstAssignment? hs hfirst).2
      · exact absurd hx FactSet.not_mem_empty
    · split at hx
      · rw [FactSet.mem_ofList, List.mem_map] at hx
        obtain ⟨name, -, rfl⟩ := hx
        exact Tree.below_self hs
      · exact absurd hx FactSet.not_mem_empty
  · exact absurd hx FactSet.not_mem_empty

/-- The uses in an assignment are of identifiers below it. -/
theorem nameBelow_of_mem_assignmentUses (h : t.subtree? n = some s)
    (hx : x ∈ assignmentUses n s) : t.NameBelow n x := by
  have hpart : ∀ m c, (m, c) ∈ Tree.numberFrom (n + 1) s.children → x ∈ identifiersIn m c →
      t.NameBelow n x := by
    intro m c hc hx
    obtain ⟨hsub, hbelow⟩ := Tree.below_of_mem_numberFrom h hc
    exact hbelow.name ((mem_identifiersIn hsub).mp hx)
  unfold assignmentUses at hx
  dsimp only at hx
  generalize Tree.numberFrom (n + 1) s.children = parts at hpart hx
  split at hx
  · grind
  · grind
  · cases hx

/-- The names in an initializer are identifiers below it. -/
theorem nameBelow_of_mem_initializerNames (h : t.subtree? n = some s)
    (hx : x ∈ initializerNames n s) : t.NameBelow n x := by
  obtain ⟨⟨m, c⟩, hc, hx⟩ := List.mem_flatMap.mp hx
  obtain ⟨⟨k, init⟩, hinit, hx⟩ := List.mem_flatMap.mp hx
  obtain ⟨hc, hbelow⟩ := Tree.below_of_mem_numberFrom h hc
  obtain ⟨hinit, hbelow'⟩ := Tree.below_of_mem_numberFrom hc hinit
  exact (hbelow.trans hbelow').name ((mem_identifiersIn hinit).mp hx)

/-- **A use** is a name at or below the step that has it. -/
theorem nameBelow_of_mem_usesAt {conditionUses : Bool}
    (hx : x ∈ t.arena.usesAt conditionUses n) : t.NameBelow n x := by
  rw [Arena.usesAt, Arena.subtree?_arena] at hx
  split at hx
  · rename_i s hs
    rw [uses, FactSet.mem_ofList] at hx
    split at hx
    · split at hx
      · exact (mem_identifiersIn hs).mp hx
      · cases hx
    · split at hx
      · rename_i site assignment hfirst
        obtain ⟨hsub, hbelow⟩ := below_of_firstAssignment? hs hfirst
        exact hbelow.name (nameBelow_of_mem_assignmentUses hsub hx)
      · split at hx
        · rename_i m declaration hdeclaration
          unfold declaration? at hdeclaration
          split at hdeclaration
          · rename_i hchildren
            obtain ⟨rfl, heq⟩ := Prod.mk.inj (Option.some.inj hdeclaration)
            rw [heq] at hchildren
            have hfirst : (n + 1, declaration) ∈ Tree.numberFrom (n + 1) s.children := by
              rw [hchildren, Tree.numberFrom_cons]
              exact List.mem_cons_self
            obtain ⟨hsub, hbelow⟩ := Tree.below_of_mem_numberFrom hs hfirst
            exact hbelow.name (nameBelow_of_mem_initializerNames hsub hx)
          · obtain ⟨rfl, rfl⟩ := Prod.mk.inj (Option.some.inj hdeclaration)
            exact nameBelow_of_mem_initializerNames hs hx
          · cases hdeclaration
        · exact (mem_identifiersIn hs).mp hx
  · exact absurd hx FactSet.not_mem_empty

end Variables

/-! ## The indexes -/

/-- A node is below one step of a graph at most. -/
def FlowGraph.Separate (g : FlowGraph) (t : Tree) : Prop :=
  ∀ n ∈ g.nodes, ∀ m ∈ g.nodes, ∀ i, t.Below n i → t.Below m i → n = m

/-- The steps of a statement share no nodes. -/
theorem Steps.Statement.separate {t body : Tree} {id : Nat} (h : Statement body)
    (hid : t.subtree? id = some body) : (graph none id body).Separate t := by
  intro n hn m hm i hni hmi
  rw [h.mem_nodes_graph] at hn hm
  exact (h.apart hid).eq_of_below hn hm hni hmi

namespace MethodFlow

variable {t : Tree} {g : FlowGraph} {i n : Nat} {name : String}

/-- The entries of the index of identifiers. -/
def useEntries (a : Arena) (g : FlowGraph) : List (Nat × UseSite) :=
  g.nodes.flatMap fun step =>
    ((a.subtree? step).elim [] (Variables.identifiersIn step)).map fun f =>
      (f.site, ⟨step, f.name⟩)

/-- The entries of the index of definitions. -/
def definitionEntries (g : FlowGraph) (generated : Table Facts) : List (Nat × Nat) :=
  g.nodes.flatMap fun step =>
    (Variables.factsAt generated step).toList.map fun f => (f.site, step)

/-- The index of identifiers is the table of its entries. -/
theorem useIndex_eq (a : Arena) (g : FlowGraph) :
    useIndex a g = Table.ofEntries (useEntries a g) := by
  rw [useIndex, Table.ofEntries, useEntries, List.foldl_flatMap]
  congr 1
  funext index step
  cases a.subtree? step with
  | none => rfl
  | some s => rw [List.foldl_map]; rfl

/-- The index of definitions is the table of its entries. -/
theorem definitionIndex_eq (g : FlowGraph) (generated : Table Facts) :
    definitionIndex g generated = Table.ofEntries (definitionEntries g generated) := by
  rw [definitionIndex, Table.ofEntries, definitionEntries, List.foldl_flatMap]
  congr 1
  funext index step
  rw [List.foldl_map]

/-- **The entries of identifiers** are the identifiers below the steps of the graph. -/
theorem mem_useEntries : (i, ⟨n, name⟩) ∈ useEntries t.arena g ↔
    n ∈ g.nodes ∧ t.NameBelow n ⟨i, name⟩ := by
  rw [useEntries, List.mem_flatMap]
  constructor
  · intro h
    obtain ⟨step, hstep, h⟩ := h
    obtain ⟨⟨site, name'⟩, hf, heq⟩ := List.mem_map.mp h
    simp only [Prod.mk.injEq, UseSite.mk.injEq] at heq
    obtain ⟨rfl, rfl, rfl⟩ := heq
    rw [Arena.subtree?_arena] at hf
    cases hs : t.subtree? step with
    | none =>
        rw [hs] at hf
        cases hf
    | some s =>
        rw [hs] at hf
        exact ⟨hstep, (Variables.mem_identifiersIn hs).mp hf⟩
  · intro h
    obtain ⟨hn, hname⟩ := h
    obtain ⟨s, hs, -⟩ := hname.1
    refine ⟨n, hn, List.mem_map.mpr ⟨⟨i, name⟩, ?_, rfl⟩⟩
    rw [Arena.subtree?_arena, hs]
    exact (Variables.mem_identifiersIn hs).mpr hname

/-- **The index of identifiers** has just the names below the steps, with these. -/
theorem getElem?_useIndex (hg : g.Separate t) : (useIndex t.arena g)[i]? = some ⟨n, name⟩ ↔
    n ∈ g.nodes ∧ t.NameBelow n ⟨i, name⟩ := by
  rw [useIndex_eq, Table.getElem?_ofEntries, mem_useEntries]
  intro u hu v hv
  obtain ⟨hn, hbelow, hkind⟩ := mem_useEntries.mp hu
  obtain ⟨hm, hbelow', hkind'⟩ := mem_useEntries.mp hv
  obtain ⟨n, name⟩ := u
  obtain ⟨m, name'⟩ := v
  obtain rfl := hg n hn m hm i hbelow hbelow'
  obtain rfl := Kind.identifier.inj (Option.some.inj (hkind.symm.trans hkind'))
  rfl

/-- **The entries of definitions** are the definitions at the steps of the graph. -/
theorem mem_definitionEntries :
    (i, n) ∈ definitionEntries g (Table.tabulate g.nodes t.arena.definitionsAt) ↔
      n ∈ g.nodes ∧ ∃ name, ⟨i, name⟩ ∈ t.arena.definitionsAt n := by
  rw [definitionEntries, List.mem_flatMap]
  constructor
  · intro h
    obtain ⟨step, hstep, h⟩ := h
    obtain ⟨⟨site, name⟩, hf, heq⟩ := List.mem_map.mp h
    obtain ⟨rfl, rfl⟩ := Prod.mk.inj heq
    exact ⟨hstep, name, (Variables.mem_factsAt hstep).mp hf⟩
  · intro h
    obtain ⟨hn, name, hdefines⟩ := h
    exact ⟨n, hn, List.mem_map.mpr ⟨⟨i, name⟩, (Variables.mem_factsAt hn).mpr hdefines, rfl⟩⟩

/-- **The index of definitions** has just the places of the definitions, with the steps that make
them. -/
theorem getElem?_definitionIndex (hg : g.Separate t) :
    (definitionIndex g (Table.tabulate g.nodes t.arena.definitionsAt))[i]? = some n ↔
      n ∈ g.nodes ∧ ∃ name, ⟨i, name⟩ ∈ t.arena.definitionsAt n := by
  rw [definitionIndex_eq, Table.getElem?_ofEntries, mem_definitionEntries]
  intro n hn m hm
  obtain ⟨hn, name, hx⟩ := mem_definitionEntries.mp hn
  obtain ⟨hm, name', hy⟩ := mem_definitionEntries.mp hm
  exact hg n hn m hm i (Variables.below_of_mem_definitionsAt hx)
    (Variables.below_of_mem_definitionsAt hy)

end MethodFlow

end SharpMutants
