import SharpMutants.Proofs.Dataflow.Components
import SharpMutants.Proofs.Dataflow.Cycles
import SharpMutants.Proofs.Dataflow.UseSites

/-!
# A method has a loop for each outermost loop statement

Edges lead up, from a step to one with a greater number, unless they are within one of the
outermost loops of a body (`Steps.Statement.rises`).  So every cycle is in one of these.  If no
`return` is in a loop, all its steps from the condition on are on a cycle with the condition
(`Steps.Statement.revolves`): edges lead from the condition to them, and from them on to the step
after each statement (`Steps.Statement.escapes`), which at the end of the body is the condition
again.  Therefore the bases are the conditions of the outermost loops
(`Steps.Statement.base_iff`).
-/

namespace SharpMutants

/-! ## Outermost loops -/

namespace Tree

/-- A node is a `while` or `for` statement. -/
def IsLoop (t : Tree) (k : Nat) : Prop :=
  ∃ s, t.subtree? k = some s ∧ (s.kind = .whileStatement ∨ s.kind = .forStatement)

/-- A loop at or below a node is not nested in another loop there. -/
structure OutermostLoop (t : Tree) (id k : Nat) : Prop where
  below : t.Below id k
  isLoop : t.IsLoop k
  eq_of_below : ∀ j, t.Below id j → t.IsLoop j → t.Below j k → j = k

mutual

/-- The outermost loops of the tree at a node. -/
def outermostLoops (id : Nat) : Tree → List Nat
  | .node d cs =>
    match d.kind with
    | .whileStatement | .forStatement => [id]
    | _ => outermostLoopsOf (id + 1) cs

/-- The outermost loops of a row of trees, the first of them at a node. -/
def outermostLoopsOf (id : Nat) : List Tree → List Nat
  | [] => []
  | c :: cs => outermostLoops id c ++ outermostLoopsOf (id + c.size) cs

end

variable {root t s : Tree} {id k n h : Nat} {d : Node} {cs : List Tree}

/-- A loop is its own outermost loop. -/
theorem outermostLoops_loop (hkind : d.kind = .whileStatement ∨ d.kind = .forStatement) :
    outermostLoops id (.node d cs) = [id] := by
  rw [outermostLoops]
  rcases hkind with hkind | hkind <;> rw [hkind]

/-- The outermost loops of a statement that is no loop are those of its children. -/
theorem outermostLoops_other (hkind : d.kind ≠ .whileStatement ∧ d.kind ≠ .forStatement) :
    outermostLoops id (.node d cs) = outermostLoopsOf (id + 1) cs := by
  rw [outermostLoops]
  split
  · rename_i hwhile
    exact absurd hwhile hkind.1
  · rename_i hfor
    exact absurd hfor hkind.2
  · rfl

/-- The outermost loops of a row are those of its trees. -/
theorem mem_outermostLoopsOf : k ∈ outermostLoopsOf id cs ↔
    ∃ ls c rs, cs = ls ++ c :: rs ∧ k ∈ outermostLoops (id + sizes ls) c := by
  induction cs generalizing id with
  | nil => simp [outermostLoopsOf]
  | cons c cs ih =>
      rw [outermostLoopsOf, List.mem_append, ih]
      constructor
      · rintro (hk | ⟨ls, b, rs, rfl, hk⟩)
        · exact ⟨[], c, cs, rfl, hk⟩
        · exact ⟨c :: ls, b, rs, rfl, by rwa [sizes, ← Nat.add_assoc]⟩
      · rintro ⟨ls, b, rs, hcs, hk⟩
        cases ls with
        | nil =>
            obtain ⟨rfl, rfl⟩ := List.cons.inj hcs
            exact .inl hk
        | cons a ls =>
            obtain ⟨rfl, rfl⟩ := List.cons.inj hcs
            exact .inr ⟨ls, b, rs, rfl, by rwa [sizes, ← Nat.add_assoc] at hk⟩

/-- A statement that is no loop is none of the loops. -/
theorem IsLoop.ne (hk : root.IsLoop k) (hid : root.subtree? id = some (.node d cs))
    (hkind : d.kind ≠ .whileStatement ∧ d.kind ≠ .forStatement) : k ≠ id := by
  rintro rfl
  obtain ⟨s, hs, hloop⟩ := hk
  obtain rfl := Option.some.inj (hid.symm.trans hs)
  exact hloop.elim hkind.1 hkind.2

/-- A loop is the only outermost loop of itself. -/
theorem outermostLoop_loop_iff (hid : root.subtree? id = some (.node d cs))
    (hkind : d.kind = .whileStatement ∨ d.kind = .forStatement) :
    root.OutermostLoop id k ↔ k = id := by
  have hloop : root.IsLoop id := ⟨_, hid, hkind⟩
  constructor
  · intro hk
    exact (hk.eq_of_below id (below_self hid) hloop hk.below).symm
  · rintro rfl
    refine ⟨below_self hid, hloop, fun j hj _ hjk => ?_⟩
    obtain ⟨_, _, hle, _⟩ := hj
    obtain ⟨_, _, hle', _⟩ := hjk
    omega

/-- The outermost loops of what is no loop are those of its children. -/
theorem outermostLoop_child_iff (hid : root.subtree? id = some (.node d cs))
    (hkind : d.kind ≠ .whileStatement ∧ d.kind ≠ .forStatement) (hn : root.arena.IsChild id n)
    (hk : root.Below n k) : root.OutermostLoop id k ↔ root.OutermostLoop n k := by
  constructor
  · exact fun h => ⟨hk, h.isLoop, fun j hj => h.eq_of_below j (hn.below.trans hj)⟩
  · refine fun h => ⟨hn.below.trans hk, h.isLoop, fun j hj hloop hjk => ?_⟩
    obtain ⟨n', hn', hj'⟩ := (below_cases hid hj).resolve_left (hloop.ne hid hkind)
    obtain rfl := eq_of_below_children hn' hn (hj'.trans hjk) hk
    exact h.eq_of_below j hj' hloop hjk

/-- **The outermost loops** are found by going down to the first loops. -/
theorem mem_outermostLoops (hid : root.subtree? id = some s) :
    k ∈ outermostLoops id s ↔ root.OutermostLoop id k := by
  induction s using Tree.inductionOn generalizing id with
  | node d cs ih =>
      by_cases hkind : d.kind = .whileStatement ∨ d.kind = .forStatement
      · rw [outermostLoops_loop hkind, List.mem_singleton, outermostLoop_loop_iff hid hkind]
      · rw [not_or] at hkind
        rw [outermostLoops_other hkind, mem_outermostLoopsOf]
        constructor
        · rintro ⟨ls, c, rs, rfl, hk⟩
          have hchild := subtree?_child hid (rfl : _ = ls ++ c :: rs)
          have houter := (ih c (List.mem_append_right _ List.mem_cons_self) hchild).mp hk
          exact (outermostLoop_child_iff hid hkind (isChild hid ls rfl) houter.below).mpr houter
        · intro houter
          obtain ⟨n, hn, hnk⟩ := (below_cases hid houter.below).resolve_left
            (houter.isLoop.ne hid hkind)
          obtain ⟨ls, c, rs, hcs, rfl⟩ := (Arena.isChild_iff hid).mp hn
          obtain rfl : cs = ls ++ c :: rs := hcs
          refine ⟨ls, c, rs, rfl, ?_⟩
          rw [ih c (List.mem_append_right _ List.mem_cons_self) (subtree?_child hid rfl)]
          exact (outermostLoop_child_iff hid hkind hn hnk).mp houter

/-- The outermost loops of a row ascend and are nodes of the row, if those of each tree are. -/
theorem outermostLoopsOf_pairwise (id : Nat)
    (hcs : ∀ c ∈ cs, ∀ id, (outermostLoops id c).Pairwise (· < ·) ∧
      ∀ k ∈ outermostLoops id c, id ≤ k ∧ k < id + c.size) :
    (outermostLoopsOf id cs).Pairwise (· < ·) ∧
      ∀ k ∈ outermostLoopsOf id cs, id ≤ k ∧ k < id + sizes cs := by
  induction cs generalizing id with
  | nil => simp [outermostLoopsOf]
  | cons c cs ih =>
      obtain ⟨hc, hcs⟩ := List.forall_mem_cons.mp hcs
      obtain ⟨hsorted, hrange⟩ := hc id
      obtain ⟨hsorted', hrange'⟩ := ih (id + c.size) hcs
      rw [outermostLoopsOf, sizes]
      refine ⟨List.pairwise_append.mpr ⟨hsorted, hsorted', fun k hk k' hk' => ?_⟩, fun k hk => ?_⟩
      · exact Nat.lt_of_lt_of_le (hrange k hk).2 (hrange' k' hk').1
      · rcases List.mem_append.mp hk with hk | hk
        · have := hrange k hk
          omega
        · have := hrange' k hk
          omega

/-- The outermost loops are listed in their order, each once. -/
theorem outermostLoops_pairwise (t : Tree) (id : Nat) : (outermostLoops id t).Pairwise (· < ·) ∧
    ∀ k ∈ outermostLoops id t, id ≤ k ∧ k < id + t.size := by
  induction t using Tree.inductionOn generalizing id with
  | node d cs ih =>
      rw [size]
      by_cases hkind : d.kind = .whileStatement ∨ d.kind = .forStatement
      · rw [outermostLoops_loop hkind]
        exact ⟨List.pairwise_singleton _ _, List.forall_mem_singleton.mpr (by omega)⟩
      · rw [outermostLoops_other (not_or.mp hkind)]
        obtain ⟨hsorted, hrange⟩ := outermostLoopsOf_pairwise (id + 1) ih
        refine ⟨hsorted, fun k hk => ?_⟩
        have := hrange k hk
        omega

/-! ## Conditions of loops -/

/-- A loop of a grammatical tree is a statement to the execution. -/
theorem Grammatical.statement_of_isLoop (hroot : root.Grammatical) (hk : root.IsLoop k) :
    ∃ s, root.subtree? k = some s ∧ Steps.Statement s ∧
      (s.kind = .whileStatement ∨ s.kind = .forStatement) := by
  obtain ⟨s, hs, hkind⟩ := hk
  refine ⟨s, hs, ?_, hkind⟩
  obtain ⟨sym, hconforms⟩ := hroot.of_mem_subtrees (List.mem_of_getElem? hs)
  have hexecuted := hconforms.executed
  obtain @⟨_, d, ss, cs, rule, -, -⟩ := hconforms
  change d.kind = _ ∨ d.kind = _ at hkind
  generalize d.kind = kind at rule hkind
  rcases hkind with rfl | rfl
  · cases rule
    exact hexecuted
  · cases rule <;> exact hexecuted

/-- The loops of a grammatical tree have conditions. -/
theorem Grammatical.exists_loopTest (hroot : root.Grammatical) (hk : root.IsLoop k) :
    ∃ h, root.LoopTest k h := by
  obtain ⟨s, hs, hstatement, hkind⟩ := hroot.statement_of_isLoop hk
  cases hstatement with
  | whileLoop hwhile => exact ⟨_, .whileLoop hs hwhile⟩
  | forLoop hfor => exact ⟨_, .forLoop hs hfor⟩
  | block hother | ifThen hother | ifElse hother | returns hother =>
      rw [kind, Tree.root, hother] at hkind
      simp at hkind
  | plain hother =>
      rw [kind, Tree.root] at hkind
      rcases hkind with hkind | hkind <;> rw [hkind] at hother <;> cases hother

/-- A loop has one condition. -/
theorem LoopTest.unique {h' : Nat} (hloop : root.LoopTest k h) (hloop' : root.LoopTest k h') :
    h = h' := by
  cases hloop with
  | whileLoop hk => exact (hloop'.eq_of_while hk).symm
  | forLoop hk => exact (hloop'.eq_of_for hk).symm

/-- The condition of a loop is behind its node, and below it. -/
theorem LoopTest.within (hloop : root.LoopTest k h) : root.Within k h h ∧ k < h := by
  cases hloop with
  | whileLoop hk =>
      have hchild := isChild hk [] rfl
      exact ⟨⟨hchild.below, Nat.le_refl _⟩, by omega⟩
  | @forLoop d init cond increment body hk =>
      have hchild := isChild hk [init] (c := cond) rfl
      rw [sizes, sizes, Nat.add_zero] at hchild
      exact ⟨⟨hchild.below, Nat.le_refl _⟩, by omega⟩

/-- The condition of the loop at a node. -/
def condition (t : Tree) (k : Nat) : Nat :=
  match t.subtree? k with
  | some (.node _ [init, _, _, _]) => k + 1 + init.size
  | _ => k + 1

/-- The test of a loop is its condition. -/
theorem LoopTest.eq_condition (hloop : root.LoopTest k h) : h = root.condition k := by
  cases hloop with
  | whileLoop hk | forLoop hk => rw [condition, hk]

/-- Two outermost loops have no nodes in common. -/
theorem OutermostLoop.eq_of_common {k' i : Nat} (hk : root.OutermostLoop id k)
    (hk' : root.OutermostLoop id k') (hi : root.Below k i) (hi' : root.Below k' i) : k = k' := by
  rcases Nat.le_total k k' with hle | hle
  · obtain ⟨s, hs, -, hlt⟩ := hi
    obtain ⟨-, -, hle', -⟩ := hi'
    exact hk'.eq_of_below k hk.below hk.isLoop ⟨s, hs, hle, by omega⟩
  · obtain ⟨-, -, hle', -⟩ := hi
    obtain ⟨s, hs, -, hlt⟩ := hi'
    exact (hk.eq_of_below k' hk'.below hk'.isLoop ⟨s, hs, hle, by omega⟩).symm

end Tree

namespace Steps

variable {root t : Tree} {cs : List Tree} {edits : List GraphEdit} {exit : Option Nat}
  {id k h n m e : Nat}

/-! ## Edges lead up, or are within a loop -/

/-- A node is a step of a loop, from the condition of the loop on. -/
def InLoop (root : Tree) (k h n : Nat) : Prop :=
  ∃ s, root.subtree? k = some s ∧ n ∈ steps k s ∧ h ≤ n

/-- Edges lead up, to the step after a statement, or from a step of an outermost loop to another
one of it, both from the condition on. -/
def Rises (root : Tree) (id : Nat) (exit : Option Nat) (edits : List GraphEdit) : Prop :=
  ∀ n m, .edge n m ∈ edits → exit = some m ∨ n < m ∨ ∃ k h, root.OutermostLoop id k ∧
    root.LoopTest k h ∧ InLoop root k h n ∧ InLoop root k h m

/-- Edits rise if both parts of them do. -/
theorem rises_append {edits' : List GraphEdit} : Rises root id exit (edits ++ edits') ↔
    Rises root id exit edits ∧ Rises root id exit edits' := by
  simp only [Rises, List.mem_append, or_imp, forall_and]

theorem rises_node_cons : Rises root id exit (.node n :: edits) ↔ Rises root id exit edits := by
  simp [Rises]

/-- The edge to the step after rises, if that step is behind its source or after the statement. -/
theorem rises_edgeTo {target : Option Nat} (h : ∀ m, target = some m → exit = some m ∨ n < m) :
    Rises root id exit (edgeTo n target) := by
  intro a m hedge
  obtain ⟨m', hm, heq⟩ := mem_edgeTo.mp hedge
  obtain ⟨rfl, rfl⟩ := GraphEdit.edge.inj heq
  exact (h m hm).imp_right .inl

/-- Edges to the step after a part may lead up. -/
theorem Rises.onto {exit' : Option Nat} (h : Rises root id exit edits)
    (hexit : ∀ n m, .edge n m ∈ edits → exit = some m → exit' = some m ∨ n < m) :
    Rises root id exit' edits := by
  intro n m hedge
  rcases h n m hedge with hm | hrest
  · exact (hexit n m hedge hm).imp_right .inl
  · exact .inr hrest

/-- The edges of a part of what is no loop. -/
theorem Rises.up {d : Node} {k' : Nat} (hid : root.subtree? id = some (.node d cs))
    (hkind : d.kind ≠ .whileStatement ∧ d.kind ≠ .forStatement) (hk' : root.arena.IsChild id k')
    (h : Rises root k' exit edits) : Rises root id exit edits := by
  intro n m hedge
  rcases h n m hedge with hm | hlt | ⟨k, test, houter, hrest⟩
  · exact .inl hm
  · exact .inr (.inl hlt)
  · exact .inr (.inr ⟨k, test,
      (Tree.outermostLoop_child_iff hid hkind hk' houter.below).mpr houter, hrest⟩)

/-- The edits of a row of statements rise, if those of each statement do. -/
theorem risesOf {p : Nat} (hcs : ∀ c ∈ cs, Statement c)
    (h : ∀ ls c rs, cs = ls ++ c :: rs → ∀ exit,
      Rises root p exit (statementEdits exit (id + Tree.sizes ls) c)) :
    Rises root p exit (statementsEdits exit id cs) := by
  induction cs generalizing id with
  | nil => exact nofun
  | cons c cs ih =>
      obtain ⟨hc, hcs⟩ := List.forall_mem_cons.mp hcs
      have hlater := row_tail (P := fun k t => ∀ exit, Rises root p exit (statementEdits exit k t)) h
      rw [statementsEdits]
      refine rises_append.mpr ⟨(h [] c cs rfl _).onto fun n m hedge hm => ?_, ih hcs hlater⟩
      have hn := hc.source_range hedge
      rcases mem_of_startOf hcs hm with hm | hm
      · have := stepsOf_range (fun c hc => (hcs c hc).range) _ m hm
        rw [Tree.sizes] at hn
        exact .inr (by omega)
      · exact .inl hm

/-- No edge of a `for` loop leads back to its initializer. -/
theorem ForLoop.test_le {l : ForLoop} (hbody : Statement l.body)
    (hedge : .edge n m ∈ l.edits exit) : exit = some m ∨ l.test ≤ m := by
  obtain ⟨-, htest, hnext⟩ := l.ordered
  rcases ForLoop.edge_iff.mp hedge with ⟨-, rfl⟩ | ⟨-, rfl | hm⟩ | ⟨-, rfl⟩ | hedge
  · exact .inr (Nat.le_refl _)
  · rcases hbody.getD_mem l.first l.next with hm | hm
    · have := hbody.range _ _ hm
      exact .inr (by omega)
    · exact .inr (by omega)
  · exact .inl hm
  · exact .inr (Nat.le_refl _)
  · rcases (hbody.within (some l.next) l.first _ hedge).2 with hm | hm
    · have := hbody.range _ m hm
      exact .inr (by omega)
    · exact .inr (Option.some.inj hm ▸ Nat.le_of_lt htest)

/-- **Edges lead up**, or are within an outermost loop. -/
theorem Statement.rises (h : Statement t) (hid : root.subtree? id = some t) :
    Rises root id exit (statementEdits exit id t) := by
  induction h generalizing exit id with
  | @block d cs hkind parts ih =>
      rw [statementEdits_block hkind]
      refine risesOf parts fun ls c rs hcs exit => ?_
      exact (ih c (hcs ▸ List.mem_append_right _ List.mem_cons_self)
        (Tree.subtree?_child hid hcs)).up hid (by simp [hkind]) (Tree.isChild hid ls hcs)
  | plain hkind hinert =>
      rw [statementEdits_plain hkind]
      exact rises_node_cons.mpr (rises_edgeTo fun m => .inl)
  | returns hkind hinert =>
      rw [statementEdits_return hkind]
      exact rises_node_cons.mpr nofun
  | @ifThen d cond body hkind hcond hbody ih =>
      obtain ⟨-, hbodyId⟩ := Tree.subtree?_children hid
      obtain ⟨-, hbodyChild⟩ := Tree.isChild_children hid
      have hpos := size_pos cond
      rw [statementEdits_ifThen hkind]
      refine rises_node_cons.mpr (rises_append.mpr ⟨rises_edgeTo fun m hm => ?_,
        rises_append.mpr ⟨rises_edgeTo fun m => .inl, ?_⟩⟩)
      · rcases hbody.mem_of_start hm with hm | hm
        · have := hbody.range _ m hm
          exact .inr (by omega)
        · exact .inl hm
      · exact (ih hbodyId).up hid (by simp [hkind]) hbodyChild
  | @ifElse d e cond body other hkind helse hcond hbody hother ihBody ihOther =>
      have hparts := Tree.branches hid
      have hpos := size_pos cond
      rw [statementEdits_ifElse hkind helse]
      refine rises_node_cons.mpr (rises_append.mpr ⟨rises_edgeTo fun m hm => ?_,
        rises_append.mpr ⟨rises_edgeTo fun m hm => ?_, rises_append.mpr ⟨?_, ?_⟩⟩⟩)
      · rcases hbody.mem_of_start hm with hm | hm
        · have := hbody.range _ m hm
          exact .inr (by omega)
        · exact .inl hm
      · rcases hother.mem_of_start hm with hm | hm
        · have := hother.range _ m hm
          exact .inr (by omega)
        · exact .inl hm
      · exact (ihBody hparts.bodyId).up hid (by simp [hkind]) hparts.bodyChild
      · exact ((ihOther hparts.otherId).up hparts.clauseId (by simp [helse]) hparts.otherChild).up
          hid (by simp [hkind]) hparts.clauseChild
  | @whileLoop d cond body hkind hcond hbody ih =>
      have hstatement := Statement.whileLoop hkind hcond hbody
      have houter := (Tree.outermostLoop_loop_iff (k := id) hid (.inl hkind)).mpr rfl
      have htest := Tree.LoopTest.whileLoop hid hkind
      have hwithin : ∀ n ∈ steps id (.node d [cond, body]), InLoop root id (id + 1) n :=
        fun n hn => ⟨_, hid, hn, test_le_of_mem_while hbody hkind hcond hn⟩
      intro n m hedge
      obtain ⟨hn, hm | hm⟩ := hstatement.within exit id _ hedge
      · exact .inr (.inr ⟨id, _, houter, htest, hwithin n hn, hwithin m hm⟩)
      · exact .inl hm
  | @forLoop d init cond increment body hkind hinit hcond hincrement hbody ih =>
      have hstatement := Statement.forLoop hkind hinit hcond hincrement hbody
      have houter := (Tree.outermostLoop_loop_iff (k := id) hid (.inr hkind)).mpr rfl
      have htest := Tree.LoopTest.forLoop hid hkind
      have hpos := size_pos init
      intro n m hedge
      obtain ⟨hn, hm⟩ := hstatement.within exit id _ hedge
      rw [statementEdits_for hkind] at hedge
      have htarget : exit = some m ∨ id + 1 + init.size ≤ m := ForLoop.test_le hbody hedge
      rcases htarget with hexit | hle
      · exact .inl hexit
      rcases hm with hm | hm
      · rcases test_le_of_mem_for hbody hkind hinit hcond hincrement hn with rfl | hle'
        · exact .inr (.inl (by omega))
        · exact .inr (.inr ⟨id, _, houter, htest, ⟨_, hid, hn, hle'⟩, ⟨_, hid, hm, hle⟩⟩)
      · exact .inl hm

/-! ## Edges lead round a loop -/

/-- Below a node there is no `return`. -/
def Returnless (root : Tree) (id : Nat) : Prop :=
  ∀ i, root.Below id i → root.arena.kind? i ≠ some .returnStatement

/-- A child has no `return` below it, if its parent has none. -/
theorem Returnless.child (h : Returnless root id) (hk : root.arena.IsChild id k) :
    Returnless root k := fun i hi => h i (hk.below.trans hi)

/-- Edges lead from every step of a row of statements to the step after it, if they do in each of
them. -/
theorem escapesOf
    (h : ∀ ls c rs, cs = ls ++ c :: rs → ∀ e,
      statementEdits (some e) (id + Tree.sizes ls) c ⊆ edits →
        ∀ n ∈ steps (id + Tree.sizes ls) c, Leading edits n e)
    (hcs : ∀ c ∈ cs, Statement c) (hedits : statementsEdits (some e) id cs ⊆ edits) :
    ∀ n ∈ stepsOf id cs, Leading edits n e := by
  induction cs generalizing id with
  | nil =>
      rw [stepsOf_nil]
      nofun
  | cons c cs ih =>
      obtain ⟨-, hcs⟩ := List.forall_mem_cons.mp hcs
      have hlater := row_tail (P := fun k t => ∀ e, statementEdits (some e) k t ⊆ edits →
        ∀ n ∈ steps k t, Leading edits n e) h
      rw [statementsEdits, List.append_subset] at hedits
      have hrest := ih hlater hcs hedits.2
      intro n hn
      rw [stepsOf_cons, List.mem_append] at hn
      rcases hn with hn | hn
      · -- The step after the statement is a step of the row, or the one after it.
        obtain ⟨next, hnext⟩ : ∃ next, (firstStepOf? (id + c.size) cs).or (some e) = some next :=
          ⟨_, Option.or_some⟩
        have hto : Leading edits next e := by
          rcases mem_of_startOf hcs hnext with hin | hout
          · exact hrest next hin
          · exact Option.some.inj hout ▸ .refl
        have hhere := h [] c cs rfl next
        rw [Tree.sizes, Nat.add_zero, ← hnext] at hhere
        exact (hhere hedits.1 n hn).trans hto
      · exact hrest n hn

/-- **A statement without `return`** leads to the step after it from all its steps. -/
theorem Statement.escapes (h : Statement t) (hid : root.subtree? id = some t)
    (hreturn : Returnless root id) (hedits : statementEdits (some e) id t ⊆ edits) :
    ∀ n ∈ steps id t, Leading edits n e := by
  induction h generalizing id e with
  | @block d cs hkind parts ih =>
      rw [statementEdits_block hkind] at hedits
      rw [steps_block hkind]
      refine escapesOf (fun ls c rs hcs e hedits => ?_) parts hedits
      exact ih c (hcs ▸ List.mem_append_right _ List.mem_cons_self) (Tree.subtree?_child hid hcs)
        (hreturn.child (Tree.isChild hid ls hcs)) hedits
  | plain hkind hinert =>
      rw [statementEdits_plain hkind] at hedits
      rw [steps_plain hkind hinert]
      refine List.forall_mem_singleton.mpr (.single (hedits ?_))
      simp [edgeTo]
  | @returns d cs hkind hinert =>
      refine absurd ?_ (hreturn id (Tree.below_self hid))
      rw [Arena.kind?_eq, hid, Option.map_some, Tree.kind, Tree.root, hkind]
  | @ifThen d cond body hkind hcond hbody ih =>
      obtain ⟨-, hbodyId⟩ := Tree.subtree?_children hid
      obtain ⟨-, hbodyChild⟩ := Tree.isChild_children hid
      obtain ⟨-, hpast, hpart⟩ := among_ifThen hkind hedits
      rw [steps_ifThen hkind hcond]
      refine List.forall_mem_cons.mpr ⟨.single (hpast e rfl), ?_⟩
      exact ih hbodyId (hreturn.child hbodyChild) hpart
  | @ifElse d c cond body other hkind helse hcond hbody hother ihBody ihOther =>
      have hparts := Tree.branches hid
      obtain ⟨hbranch, -, hpart, hpart'⟩ := among_ifElse hkind helse hedits
      have hescapes := ihBody hparts.bodyId (hreturn.child hparts.bodyChild) hpart
      have hescapes' := ihOther hparts.otherId
        ((hreturn.child hparts.clauseChild).child hparts.otherChild) hpart'
      rw [steps_ifElse hkind helse hcond]
      refine List.forall_mem_cons.mpr ⟨?_, List.forall_mem_append.mpr ⟨hescapes, hescapes'⟩⟩
      -- The condition leads on through the first branch, or past it if it has no steps.
      have hedge := hbranch _ Option.or_some
      rcases hbody.getD_mem (id + 1 + cond.size) e with hin | hout
      · exact .head hedge (hescapes _ hin)
      · exact .single (hout ▸ hedge)
  | @whileLoop d cond body hkind hcond hbody ih =>
      obtain ⟨-, hbodyId⟩ := Tree.subtree?_children hid
      obtain ⟨-, hbodyChild⟩ := Tree.isChild_children hid
      obtain ⟨-, hpast, hpart⟩ := among_while hkind hedits
      have htest : Leading edits (id + 1) e := .single (hpast e rfl)
      rw [steps_while hkind hcond]
      refine List.forall_mem_cons.mpr ⟨htest, fun n hn => ?_⟩
      exact (ih hbodyId (hreturn.child hbodyChild) hpart n hn).trans htest
  | @forLoop d init cond increment body hkind hinit hcond hincrement hbody ih =>
      obtain ⟨-, -, -, hbodyId⟩ := Tree.subtree?_children hid
      obtain ⟨-, -, -, hbodyChild⟩ := Tree.isChild_children hid
      have hamong := among_for hkind hedits
      have htest : Leading edits (id + 1 + init.size) e := .single (hamong.past e rfl)
      have hnext : Leading edits (id + 1 + init.size + cond.size) e := .head hamong.back htest
      intro n hn
      rcases (mem_steps_for hkind hinit hcond hincrement).mp hn with rfl | rfl | rfl | hn
      · exact .head hamong.enter htest
      · exact htest
      · exact hnext
      · exact (ih hbodyId (hreturn.child hbodyChild) hamong.part n hn).trans hnext

/-- Without `return` all steps of a statement are attained from where edges lead to the first. -/
theorem Statement.leading_steps (h : Statement t) (hid : root.subtree? id = some t)
    (hreturn : Returnless root id) (hedits : statementEdits exit id t ⊆ edits)
    (hstart : ∀ n, (firstStep? id t).or exit = some n → Leading edits k n) :
    ∀ n ∈ steps id t, Leading edits k n := by
  intro n hn
  refine (h.attained hedits hstart).steps n ((h.mem_reached_iff hid).mpr ⟨hn, ?_⟩)
  exact Tree.unobstructed_of_no_return hreturn

/-- The steps of a loop from its condition on are on a cycle with the condition. -/
structure Revolves (edits : List GraphEdit) (ss : List Nat) (h : Nat) : Prop where
  cycle : Relation.TransGen (fun n m => .edge n m ∈ edits) h h
  leads : ∀ n ∈ ss, h ≤ n → Leading edits h n
  returns : ∀ n ∈ ss, h ≤ n → Leading edits n h

/-- **A loop without `return`** goes round. -/
theorem Statement.revolves (ht : Statement t) (hid : root.subtree? k = some t)
    (hloop : root.LoopTest k h) (hreturn : Returnless root k)
    (hedits : statementEdits exit k t ⊆ edits) : Revolves edits (steps k t) h := by
  cases ht with
  | block hkind | returns hkind | ifThen hkind | ifElse hkind =>
      exact absurd rfl (hloop.ne hid (by simp [hkind]))
  | plain hkind =>
      refine absurd rfl (hloop.ne hid ⟨fun heq => ?_, fun heq => ?_⟩) <;>
        (rw [heq] at hkind; cases hkind)
  | @whileLoop d cond body hkind hcond hbody =>
      obtain rfl := hloop.eq_of_while hid
      obtain ⟨-, hbodyId⟩ := Tree.subtree?_children hid
      obtain ⟨-, hbodyChild⟩ := Tree.isChild_children hid
      obtain ⟨hround, -, hpart⟩ := among_while hkind hedits
      have hescapes := hbody.escapes hbodyId (hreturn.child hbodyChild) hpart
      have hsteps := hbody.leading_steps (k := k + 1) hbodyId (hreturn.child hbodyChild) hpart
        fun n hn => by
          rw [Option.or_some, Option.some.injEq] at hn
          exact .single (hn ▸ hround)
      have hmem : ∀ n ∈ steps k (.node d [cond, body]), n = k + 1 ∨
          n ∈ steps (k + 1 + cond.size) body := by
        intro n hn
        rwa [steps_while hkind hcond, List.mem_cons] at hn
      refine ⟨?_, fun n hn _ => ?_, fun n hn _ => ?_⟩
      · rcases hbody.getD_mem (k + 1 + cond.size) (k + 1) with hin | hout
        · exact .head' hround (hescapes _ hin)
        · rw [hout] at hround
          exact .single hround
      · rcases hmem n hn with rfl | hn
        · exact .refl
        · exact hsteps n hn
      · rcases hmem n hn with rfl | hn
        · exact .refl
        · exact hescapes n hn
  | @forLoop d init cond increment body hkind hinit hcond hincrement hbody =>
      obtain rfl := hloop.eq_of_for hid
      obtain ⟨-, -, -, hbodyId⟩ := Tree.subtree?_children hid
      obtain ⟨-, -, -, hbodyChild⟩ := Tree.isChild_children hid
      have hpos := size_pos init
      obtain ⟨-, hround, -, hback, hpart⟩ := among_for hkind hedits
      simp only [ForLoop.test, ForLoop.first, ForLoop.next, ForLoop.start] at hround
      have hescapes := hbody.escapes hbodyId (hreturn.child hbodyChild) hpart
      have hsteps := hbody.leading_steps (k := k + 1 + init.size) hbodyId
        (hreturn.child hbodyChild) hpart fun n hn => by
          rw [Option.or_some, Option.some.injEq] at hn
          exact .single (hn ▸ hround)
      -- The condition leads to the incrementer, through the body if it has steps.
      have hnext : Relation.TransGen (fun n m => .edge n m ∈ edits) (k + 1 + init.size)
          (k + 1 + init.size + cond.size) := by
        rcases hbody.getD_mem (k + 1 + init.size + cond.size + increment.size)
          (k + 1 + init.size + cond.size) with hin | hout
        · exact .head' hround (hescapes _ hin)
        · rw [hout] at hround
          exact .single hround
      have hmem : ∀ n ∈ steps k (.node d [init, cond, increment, body]), k + 1 + init.size ≤ n →
          n = k + 1 + init.size ∨ n = k + 1 + init.size + cond.size ∨
            n ∈ steps (k + 1 + init.size + cond.size + increment.size) body := by
        intro n hn hle
        exact ((mem_steps_for hkind hinit hcond hincrement).mp hn).resolve_left (by omega)
      refine ⟨hnext.tail hback, fun n hn hle => ?_, fun n hn hle => ?_⟩
      · rcases hmem n hn hle with rfl | rfl | hn
        · exact .refl
        · exact hnext.to_reflTransGen
        · exact hsteps n hn
      · rcases hmem n hn hle with rfl | rfl | hn
        · exact .refl
        · exact .single hback
        · exact (hescapes n hn).tail hback

/-- The edges of a statement of a row are among those of the row. -/
theorem exists_subset_statementsEdits (exit : Option Nat) (id : Nat) (ls : List Tree) (c : Tree)
    (rs : List Tree) :
    ∃ exit', statementEdits exit' (id + Tree.sizes ls) c ⊆
      statementsEdits exit id (ls ++ c :: rs) := by
  induction ls generalizing id with
  | nil =>
      rw [List.nil_append, statementsEdits, Tree.sizes, Nat.add_zero]
      exact ⟨_, List.subset_append_left _ _⟩
  | cons b ls ih =>
      obtain ⟨exit', hsubset⟩ := ih (id + b.size)
      rw [List.cons_append, statementsEdits, Tree.sizes, ← Nat.add_assoc]
      exact ⟨exit', List.Subset.trans hsubset (List.subset_append_right _ _)⟩

/-- A node is a statement, and its edges are among some edges. -/
def Included (root : Tree) (k : Nat) (edits : List GraphEdit) : Prop :=
  ∃ exit s, root.subtree? k = some s ∧ Statement s ∧ statementEdits exit k s ⊆ edits

/-- Edges that include a statement still do when there are more. -/
theorem Included.mono {edits' : List GraphEdit} (h : Included root k edits)
    (hedits : edits ⊆ edits') : Included root k edits' := by
  obtain ⟨exit, s, hs, hstatement, hsubset⟩ := h
  exact ⟨exit, s, hs, hstatement, List.Subset.trans hsubset hedits⟩

/-- **An outermost loop** is a statement whose edges are among those of the statements around
it. -/
theorem Statement.included (ht : Statement t) (exit : Option Nat) (hid : root.subtree? id = some t)
    (hk : root.OutermostLoop id k) (hloop : root.LoopTest k h) :
    Included root k (statementEdits exit id t) := by
  induction ht generalizing exit id with
  | @block d cs hkind parts ih =>
      have hkind' : d.kind ≠ .whileStatement ∧ d.kind ≠ .forStatement := by simp [hkind]
      obtain ⟨k', hchild, hbelow⟩ := (Tree.below_cases hid hk.below).resolve_left
        (hk.isLoop.ne hid hkind')
      obtain ⟨ls, c, rs, hcs, rfl⟩ := (Arena.isChild_iff hid).mp hchild
      obtain rfl : cs = ls ++ c :: rs := hcs
      obtain ⟨exit', hsubset⟩ := exists_subset_statementsEdits exit (id + 1) ls c rs
      rw [statementEdits_block hkind]
      have hinner := (Tree.outermostLoop_child_iff hid hkind' hchild hbelow).mp hk
      exact (ih c (List.mem_append_right _ List.mem_cons_self) _ (Tree.subtree?_child hid rfl)
        hinner).mono hsubset
  | plain hkind hinert =>
      exact absurd (steps_plain hkind hinert) (not_below_step hloop hk.below hid)
  | returns hkind hinert =>
      exact absurd (steps_return hkind hinert) (not_below_step hloop hk.below hid)
  | @ifThen d cond body hkind hcond hbody ih =>
      have hkind' : d.kind ≠ .whileStatement ∧ d.kind ≠ .forStatement := by simp [hkind]
      obtain ⟨hcondId, hbodyId⟩ := Tree.subtree?_children hid
      obtain ⟨-, hbodyChild⟩ := Tree.isChild_children hid
      obtain ⟨k', hk', hbelow⟩ := (below_children hid hk.below).resolve_left
        (hk.isLoop.ne hid hkind')
      simp only [Tree.numbersFrom_cons, Tree.numbersFrom_nil, List.mem_cons, List.not_mem_nil,
        or_false] at hk'
      rcases hk' with rfl | rfl
      · exact absurd hbelow (hcond.not_below hcondId hloop)
      · have hinner := (Tree.outermostLoop_child_iff hid hkind' hbodyChild hbelow).mp hk
        refine (ih exit hbodyId hinner).mono ?_
        rw [statementEdits_ifThen hkind]
        intro edit hedit
        simp [hedit]
  | @ifElse d e cond body other hkind helse hcond hbody hother ihBody ihOther =>
      have hkind' : d.kind ≠ .whileStatement ∧ d.kind ≠ .forStatement := by simp [hkind]
      have helse' : e.kind ≠ .whileStatement ∧ e.kind ≠ .forStatement := by simp [helse]
      have hparts := Tree.branches hid
      obtain ⟨k', hk', hbelow⟩ := (below_children hid hk.below).resolve_left
        (hk.isLoop.ne hid hkind')
      simp only [Tree.numbersFrom_cons, Tree.numbersFrom_nil, List.mem_cons, List.not_mem_nil,
        or_false] at hk'
      rcases hk' with rfl | rfl | rfl
      · exact absurd hbelow (hcond.not_below hparts.condId hloop)
      · have hinner := (Tree.outermostLoop_child_iff hid hkind' hparts.bodyChild hbelow).mp hk
        refine (ihBody exit hparts.bodyId hinner).mono ?_
        rw [statementEdits_ifElse hkind helse]
        intro edit hedit
        simp [hedit]
      · have hclause := (Tree.outermostLoop_child_iff hid hkind' hparts.clauseChild hbelow).mp hk
        obtain ⟨k', hk', hbelow'⟩ := (below_children hparts.clauseId hbelow).resolve_left
          (hk.isLoop.ne hparts.clauseId helse')
        simp only [Tree.numbersFrom_cons, Tree.numbersFrom_nil, List.mem_singleton] at hk'
        subst hk'
        have hinner := (Tree.outermostLoop_child_iff hparts.clauseId helse' hparts.otherChild
          hbelow').mp hclause
        refine (ihOther exit hparts.otherId hinner).mono ?_
        rw [statementEdits_ifElse hkind helse]
        intro edit hedit
        simp [hedit]
  | whileLoop hkind hcond hbody =>
      obtain rfl := (Tree.outermostLoop_loop_iff hid (.inl hkind)).mp hk
      exact ⟨exit, _, hid, .whileLoop hkind hcond hbody, List.Subset.refl _⟩
  | forLoop hkind hinit hcond hincrement hbody =>
      obtain rfl := (Tree.outermostLoop_loop_iff hid (.inr hkind)).mp hk
      exact ⟨exit, _, hid, .forLoop hkind hinit hcond hincrement hbody, List.Subset.refl _⟩

/-! ## The bases of a body -/

section Bases

variable {body : Tree} (hbody : Statement body) (hid : root.subtree? id = some body)
  (hreturn : ∀ k, root.Below id k → root.IsLoop k → Returnless root k)

include hbody hid hreturn

/-- The steps of an outermost loop go round, and are below the loop. -/
theorem Statement.round (hk : root.OutermostLoop id k) (hloop : root.LoopTest k h) :
    (graph none id body).Passes h h ∧ ∀ n, InLoop root k h n →
      (graph none id body).Reaches h n ∧ (graph none id body).Reaches n h ∧ root.Below k n := by
  obtain ⟨exit, s, hs, hstatement, hedits⟩ := hbody.included none hid hk hloop
  obtain ⟨hcycle, hleads, hreturns⟩ :=
    hstatement.revolves hs hloop (hreturn k hk.below hk.isLoop) hedits
  have hedge : ∀ n m, .edge n m ∈ statementEdits none id body →
      m ∈ (graph none id body).successors n := fun n m => mem_successors_graph.mpr
  refine ⟨Relation.TransGen.mono hedge _ _ hcycle, ?_⟩
  rintro n ⟨s', hs', hn, hle⟩
  obtain rfl := Option.some.inj (hs.symm.trans hs')
  exact ⟨Relation.ReflTransGen.mono hedge _ _ (hleads n hn hle),
    Relation.ReflTransGen.mono hedge _ _ (hreturns n hn hle), hstatement.below_of_mem hs hn⟩

/-- No path leads from the condition of an outermost loop to a lower step. -/
theorem Statement.le_of_reaches (hk : root.OutermostLoop id k) (hloop : root.LoopTest k h)
    (hpath : (graph none id body).Reaches h n) : h ≤ n := by
  induction hpath with
  | refl => exact Nat.le_refl h
  | @tail x y _ hedge ih =>
      rcases hbody.rises hid x y (mem_successors_graph.mp hedge) with hexit | hlt |
        ⟨k', h', hk', hloop', hx, hy⟩
      · cases hexit
      · omega
      · -- An edge past the condition is within the loop, which goes on from the condition.
        by_contra hlt
        obtain ⟨-, hround⟩ := hbody.round hid hreturn hk' hloop'
        obtain ⟨s, hs, -, hxlt⟩ := (hround x hx).2.2
        obtain ⟨-, -, hyle, -⟩ := (hround y hy).2.2
        have hcommon : root.Below k' h := ⟨s, hs, by omega, by omega⟩
        obtain rfl := hk'.eq_of_common hk hcommon hloop.within.1.1
        obtain rfl := hloop'.unique hloop
        obtain ⟨-, -, -, hle⟩ := hy
        omega

omit hreturn in
/-- A path leads up, or past a step of an outermost loop. -/
theorem Statement.lt_or_inLoop (hpath : (graph none id body).Passes n m) :
    n < m ∨ ∃ x k h, (graph none id body).Reaches n x ∧ (graph none id body).Reaches x m ∧
      root.OutermostLoop id k ∧ root.LoopTest k h ∧ InLoop root k h x := by
  have hstep : ∀ x y, y ∈ (graph none id body).successors x → x < y ∨
      ∃ k h, root.OutermostLoop id k ∧ root.LoopTest k h ∧ InLoop root k h x := by
    intro x y hedge
    rcases hbody.rises hid x y (mem_successors_graph.mp hedge) with hexit | hlt |
      ⟨k, h, hk, hloop, hx, -⟩
    · cases hexit
    · exact .inl hlt
    · exact .inr ⟨k, h, hk, hloop, hx⟩
  induction hpath with
  | single hedge =>
      refine (hstep _ _ hedge).imp_right ?_
      rintro ⟨k, h, hloop⟩
      exact ⟨n, k, h, .refl, .single hedge, hloop⟩
  | @tail x y hpath hedge ih =>
      rcases ih with hlt | ⟨x', k, h, hto, hback, hloop⟩
      · rcases hstep x y hedge with hlt' | ⟨k, h, hloop⟩
        · exact .inl (Nat.lt_trans hlt hlt')
        · exact .inr ⟨x, k, h, hpath.to_reflTransGen, .single hedge, hloop⟩
      · exact .inr ⟨x', k, h, hto, hback.tail hedge, hloop⟩

/-- **The bases** of a body are the conditions of its outermost loops. -/
theorem Statement.base_iff : (graph none id body).Base n ↔
    ∃ k, root.OutermostLoop id k ∧ root.LoopTest k n := by
  constructor
  · intro hn
    rcases hbody.lt_or_inLoop hid hn.cyclic with hlt | ⟨x, k, h, hto, hback, hk, hloop, hx⟩
    · exact absurd hlt (Nat.lt_irrefl n)
    · obtain ⟨-, hround⟩ := hbody.round hid hreturn hk hloop
      obtain ⟨hleads, hreturns, -⟩ := hround x hx
      have hle : n ≤ h := by
        apply hn.least
        · exact hn.cyclic.trans_left (hto.trans hreturns)
        · exact hn.cyclic.trans_right (hleads.trans hback)
      have hle' := hbody.le_of_reaches hid hreturn hk hloop (hleads.trans hback)
      obtain rfl : n = h := Nat.le_antisymm hle hle'
      exact ⟨k, hk, hloop⟩
  · rintro ⟨k, hk, hloop⟩
    obtain ⟨hcycle, -⟩ := hbody.round hid hreturn hk hloop
    exact ⟨hcycle, fun m hto _ =>
      hbody.le_of_reaches hid hreturn hk hloop hto.to_reflTransGen⟩

end Bases

end Steps

/-- A graph has as many loops as there are outermost loops, if its bases are their conditions. -/
theorem FlowGraph.Closed.loopCount_eq {g : FlowGraph} (hg : g.Closed) {root body : Tree} {id : Nat}
    (hid : root.subtree? id = some body) (hloops : ∀ k, root.IsLoop k → ∃ h, root.LoopTest k h)
    (hbases : ∀ n, g.Base n ↔ ∃ k, root.OutermostLoop id k ∧ root.LoopTest k n) :
    g.loopCount = (body.outermostLoops id).length := by
  obtain ⟨bs, hnodup, hbs, hcount⟩ := hg.exists_bases
  have houter : ∀ k, k ∈ body.outermostLoops id ↔ root.OutermostLoop id k :=
    fun k => Tree.mem_outermostLoops hid
  have hconditions : ((body.outermostLoops id).map root.condition).Nodup := by
    refine List.Nodup.map_on (fun k hk k' hk' heq => ?_)
      ((Tree.outermostLoops_pairwise body id).1.imp Nat.ne_of_lt)
    -- A node below two outermost loops is below one of them only.
    have hk := (houter k).mp hk
    have hk' := (houter k').mp hk'
    obtain ⟨h, hloop⟩ := hloops k hk.isLoop
    obtain ⟨h', hloop'⟩ := hloops k' hk'.isLoop
    rw [← hloop.eq_condition, ← hloop'.eq_condition] at heq
    subst heq
    exact hk.eq_of_common hk' hloop.within.1.1 hloop'.within.1.1
  have hperm : bs.Perm ((body.outermostLoops id).map root.condition) := by
    refine (List.perm_ext_iff_of_nodup hnodup hconditions).mpr fun n => ?_
    rw [hbs, hbases, List.mem_map]
    constructor
    · rintro ⟨k, hk, hloop⟩
      exact ⟨k, (houter k).mpr hk, hloop.eq_condition.symm⟩
    · rintro ⟨k, hk, rfl⟩
      have hk := (houter k).mp hk
      obtain ⟨h, hloop⟩ := hloops k hk.isLoop
      exact ⟨k, hk, hloop.eq_condition ▸ hloop⟩
  rw [hcount, hperm.length_eq, List.length_map]

/-- **Loops are counted by the outermost loop statements.**  In a method with no `return` in a
loop, the graph has as many loops as the body has `while` and `for` statements that are not nested
in another; and so has any partition of its nodes into strongly connected components, of those with
a cycle. -/
theorem loopCount_eq_length_outermostLoops {source : Text} {d : Document}
    (h : parse source = .ok d) {m : Nat} (hm : m ∈ d.tree.methods) :
    ∃ g id body, d.arena.methodGraph m = .ok g ∧ d.methodBody? m = some (id, body) ∧
      d.tree.subtree? id = some body ∧
      (∀ k, k ∈ body.outermostLoops id ↔ d.tree.OutermostLoop id k) ∧
      (body.outermostLoops id).Nodup ∧ (∃ cs, g.Components cs) ∧
      ((∀ k, d.tree.Below id k → d.tree.IsLoop k →
          ∀ i, d.tree.Below k i → d.arena.kind? i ≠ some .returnStatement) →
        g.loopCount = (body.outermostLoops id).length ∧
        ∀ cs, g.Components cs → cs.countP g.isCyclic = (body.outermostLoops id).length) := by
  obtain ⟨-, -, -, -, -, hgrammatical, -⟩ := conforms_of_parse h
  obtain ⟨id, body, hbodyId, hid, hbody, hgraph⟩ := exists_methodBody h hm
  have hclosed : (Steps.graph none id body).Closed := hbody.closed_graph
  refine ⟨_, id, body, hgraph, hbodyId, hid, fun k => Tree.mem_outermostLoops hid,
    (Tree.outermostLoops_pairwise body id).1.imp Nat.ne_of_lt, hclosed.exists_components,
    fun hreturn => ?_⟩
  have hcount := hclosed.loopCount_eq hid (fun k => hgrammatical.exists_loopTest)
    fun n => hbody.base_iff hid hreturn
  exact ⟨hcount, fun cs hcs => (hcs.countP_isCyclic hclosed).trans hcount⟩

/-- A loop in a loop, a loop without steps in its body after it, and a `return` in a branch behind
both. -/
def nestedLoops : Text :=
  ("class C \x7b int M(int n) \x7b " ++
    "while (n > 0) \x7b for (int i = 0; i < n; i++) n = i; n = n - 1; \x7d " ++
    "for (int j = 0; j < n; j++) \x7b \x7d if (n == 0) return 1; return n; \x7d \x7d").toList

/-- They make two loops. -/
theorem loopCount_eq_length_outermostLoops_nested : ∃ d g id body,
    parse nestedLoops = .ok d ∧ d.arena.methodGraph 2 = .ok g ∧
      d.methodBody? 2 = some (id, body) ∧
      (∀ k, d.tree.Below id k → d.tree.IsLoop k →
        ∀ i, d.tree.Below k i → d.arena.kind? i ≠ some .returnStatement) ∧
      g.loopCount = 2 ∧ ∃ cs, g.Components cs ∧ cs.countP g.isCyclic = 2 := by
  have hread : (parse nestedLoops).toOption.any (fun d => d.tree.methods.contains 2 &&
      (d.methodBody? 2).any (fun e => (e.2.outermostLoops e.1).length == 2) &&
      d.tree.subtrees.all fun s => (s.kind != .whileStatement && s.kind != .forStatement) ||
        s.subtrees.all fun u => u.kind != .returnStatement) = true := by
    decide +kernel
  obtain ⟨d, hd, hfacts⟩ := exists_document_of_any hread
  simp only [Bool.and_eq_true] at hfacts
  obtain ⟨⟨hmethod, hlength⟩, hreturns⟩ := hfacts
  obtain ⟨g, id, body, hgraph, hbody, -, -, -, ⟨cs, hcs⟩, hcount⟩ :=
    loopCount_eq_length_outermostLoops hd (m := 2) (List.contains_iff_mem.mp hmethod)
  have hreturn : ∀ k, d.tree.Below id k → d.tree.IsLoop k →
      ∀ i, d.tree.Below k i → d.arena.kind? i ≠ some .returnStatement := by
    rintro k - ⟨s, hs, hkind⟩ i hi hreturn
    have hall := List.all_eq_true.mp hreturns s (List.mem_of_getElem? hs)
    have hnone : ∀ u ∈ s.subtrees, u.kind ≠ .returnStatement := by
      rcases hkind with hkind | hkind <;> simpa [hkind] using hall
    obtain ⟨hle, hlt⟩ := (Tree.below_iff hs).mp hi
    have hsub := Tree.subtree?_add hs (k := i - k) (by omega)
    rw [Document.arena, Arena.kind?_eq, show i = k + (i - k) by omega, hsub,
      Option.map_eq_some_iff] at hreturn
    obtain ⟨u, hu, hreturn⟩ := hreturn
    exact hnone u (List.mem_of_getElem? hu) hreturn
  obtain ⟨hloops, hcomponents⟩ := hcount hreturn
  rw [hbody, Option.any_some, beq_iff_eq] at hlength
  exact ⟨d, g, id, body, hd, hgraph, hbody, hreturn, hloops.trans hlength, cs, hcs,
    (hcomponents cs hcs).trans hlength⟩

end SharpMutants
