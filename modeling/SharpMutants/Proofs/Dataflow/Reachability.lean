import SharpMutants.Proofs.Dataflow.Completion
import SharpMutants.Proofs.Dataflow.DepthFirst
import SharpMutants.Proofs.Numbering

/-!
# Dead code can be told from the tree

Control comes to a step of a method just if nothing in the tree keeps it away
(`Tree.Unobstructed`): in each block around the step, the statements ahead of the one that the
step is in can complete; and if the step is the incrementer of a loop, so can the body of the
loop.  Both are facts about one node and the step (`Tree.ClearAt`).  A node that the step is not
below is no obstacle, so the nodes in question are those on the way from the body of the method
down to the step (`Tree.unobstructed_child`).
-/

namespace SharpMutants

namespace Tree

variable {root s c : Tree} {ls rs : List Tree} {id p n k : Nat}

/-- A node is no obstacle on the way to a step. -/
structure ClearAt (t : Tree) (p n : Nat) : Prop where
  /-- In a block, the statements ahead of the one that the step is in can complete. -/
  passed : ∀ b, t.subtree? p = some b → b.kind = .block → ∀ k j s, t.arena.parent? k = some p →
    t.Below k n → t.arena.parent? j = some p → j < k → t.subtree? j = some s → s.completes = true
  /-- If the step is the incrementer of a loop, the body can complete. -/
  advanced : ∀ d init cond increment body,
    t.subtree? p = some (.node d [init, cond, increment, body]) → d.kind = .forStatement →
      n = p + 1 + init.size + cond.size → body.completes = true

/-- No node in the subtree at a node is an obstacle on the way to a step. -/
def Unobstructed (t : Tree) (id n : Nat) : Prop := ∀ p, t.Below id p → t.ClearAt p n

/-- Nodes are in the way only of what is below them. -/
theorem clearAt_of_not_below (h : ¬(root.Below p n ∧ p < n)) : root.ClearAt p n where
  passed b hb hkind k j s hk hkn hj hjk hs := by
    have hchild := Arena.parent?_eq_some_iff.mp hk
    obtain ⟨ls, u, rs, -, rfl⟩ := (Arena.isChild_iff hb).mp hchild
    obtain ⟨v, hv, hle, hlt⟩ := hkn
    exact absurd ⟨hchild.below.trans ⟨v, hv, hle, hlt⟩, by omega⟩ h
  advanced d init cond increment body hloop hkind hn := by
    have hpos := Steps.size_pos increment
    refine absurd ⟨(below_iff hloop).mpr ?_, by omega⟩ h
    simp only [size, sizes]
    omega

/-- Other nodes than blocks and `for` loops are not in the way. -/
theorem clearAt_other {d : Node} {cs : List Tree} (hp : root.subtree? p = some (.node d cs))
    (hkind : d.kind = .ifStatement ∨ d.kind = .elseClause ∨ d.kind = .whileStatement) (n : Nat) :
    root.ClearAt p n where
  passed b hb hblock := by
    obtain rfl := Option.some.inj (hp.symm.trans hb)
    rw [kind, Tree.root] at hblock
    simp [hblock] at hkind
  advanced e init cond increment body hloop hfor := by
    cases hp.symm.trans hloop
    simp [hfor] at hkind

/-- Nothing below a node is on the way to it. -/
theorem unobstructed_self : root.Unobstructed k k := by
  intro p hp
  obtain ⟨u, hu, hle, hlt⟩ := hp
  exact clearAt_of_not_below fun hn => by omega

/-- **The way to a step** leads over a node and on in the child that the step is below. -/
theorem unobstructed_child (hk : root.arena.IsChild id k) (hn : root.Below k n) :
    root.Unobstructed id n ↔ root.ClearAt id n ∧ root.Unobstructed k n := by
  obtain ⟨s, hid⟩ := hk.exists_subtree
  constructor
  · intro h
    exact ⟨h id (below_self hid), fun p hp => h p (hk.below.trans hp)⟩
  · rintro ⟨hhere, hbelow⟩ p hp
    rcases below_cases hid hp with rfl | ⟨k', hk', hpin⟩
    · exact hhere
    · by_cases hin : root.Below k p
      · exact hbelow p hin
      · -- The node is below another child, so the step is not below it.
        refine clearAt_of_not_below fun hpn => hin ?_
        rwa [eq_of_below_children hk hk' hn (hpin.trans hpn.1)]

/-- The parts of an `if` or `while` are reached as the whole is. -/
theorem unobstructed_part {d : Node} {cs : List Tree} (hid : root.subtree? id = some (.node d cs))
    (hkind : d.kind = .ifStatement ∨ d.kind = .elseClause ∨ d.kind = .whileStatement)
    (hk : root.arena.IsChild id k) (hn : root.Below k n) :
    root.Unobstructed id n ↔ root.Unobstructed k n :=
  (unobstructed_child hk hn).trans (and_iff_right (clearAt_other hid hkind n))

/-- The condition of an `if` or `while` is reached as the whole is. -/
theorem unobstructed_test {d : Node} {cs : List Tree}
    (hid : root.subtree? id = some (.node d (c :: cs)))
    (hkind : d.kind = .ifStatement ∨ d.kind = .elseClause ∨ d.kind = .whileStatement) :
    root.Unobstructed id (id + 1) := by
  have htest : root.subtree? (id + 1) = some c := subtree?_of_mem_numberFrom hid (by
    rw [children, numberFrom_cons]
    exact List.mem_cons_self)
  exact (unobstructed_part hid hkind (isChild hid [] rfl) (below_self htest)).mpr unobstructed_self

/-- A block lets through what is in a statement if those ahead of it can complete. -/
theorem clearAt_block (hid : root.subtree? id = some s) (hkind : s.kind = .block)
    (hcs : s.children = ls ++ c :: rs) (hn : root.Below (id + 1 + sizes ls) n) :
    root.ClearAt id n ↔ ∀ b ∈ ls, b.completes = true := by
  have hchild := subtree?_child hid hcs
  obtain ⟨hle, hlt⟩ := (below_iff hchild).mp hn
  constructor
  · intro h b hb
    obtain ⟨ls', rs', rfl⟩ := List.append_of_mem hb
    have hcs' : s.children = ls' ++ b :: (rs' ++ c :: rs) := by
      rw [hcs, List.append_assoc, List.cons_append]
    refine h.passed s hid hkind _ (id + 1 + sizes ls') b
      (Arena.parent?_eq_some_iff.mpr ((Arena.isChild_iff hid).mpr ⟨_, c, rs, hcs, rfl⟩)) hn
      (Arena.parent?_eq_some_iff.mpr ((Arena.isChild_iff hid).mpr ⟨ls', b, _, hcs', rfl⟩)) ?_
      (subtree?_child hid hcs')
    have := Steps.size_pos b
    rw [sizes_append, sizes]
    omega
  · intro h
    refine ⟨fun b hb _ k j u hk hkn hj hjk hu => ?_, fun d _ _ _ _ hloop hfor => ?_⟩
    · obtain rfl := Option.some.inj (hid.symm.trans hb)
      obtain ⟨ls', c', rs', hcs', rfl⟩ :=
        (Arena.isChild_iff hid).mp (Arena.parent?_eq_some_iff.mp hk)
      obtain ⟨ls'', c'', rs'', hcs'', rfl⟩ :=
        (Arena.isChild_iff hid).mp (Arena.parent?_eq_some_iff.mp hj)
      obtain rfl := Option.some.inj ((subtree?_child hid hcs'').symm.trans hu)
      obtain ⟨hle', hlt'⟩ := (below_iff (subtree?_child hid hcs')).mp hkn
      refine h _ (split_of_lt (hcs''.symm.trans hcs) ?_).1
      by_contra hge
      have := (split_of_lt (hcs.symm.trans hcs') (by omega)).2
      omega
    · obtain rfl := Option.some.inj (hid.symm.trans hloop)
      rw [kind, Tree.root, hfor] at hkind
      cases hkind

/-- A `for` loop is in the way of its incrementer only. -/
theorem clearAt_for {d : Node} {init cond increment body : Tree}
    (hid : root.subtree? id = some (.node d [init, cond, increment, body]))
    (hkind : d.kind = .forStatement) : root.ClearAt id n ↔
      (n = id + 1 + init.size + cond.size → body.completes = true) := by
  constructor
  · exact fun h => h.advanced d init cond increment body hid hkind
  · refine fun h => ⟨fun b hb hblock => ?_, fun e _ _ _ _ hloop _ => ?_⟩
    · obtain rfl := Option.some.inj (hid.symm.trans hb)
      rw [kind, Tree.root, hkind] at hblock
      cases hblock
    · cases hid.symm.trans hloop
      exact h

/-! ## Statements that complete -/

mutual

/-- **Only a `return`** keeps a statement from completing. -/
theorem completes_of_forall : ∀ t : Tree, (∀ u ∈ t.subtrees, u.kind ≠ .returnStatement) →
    t.completes = true
  | .node d cs, h => by
    rw [subtrees_node, List.forall_mem_cons] at h
    have hcs := completesAll_of_forall cs h.2
    rw [completes.eq_def]
    dsimp only
    split
    · rename_i hkind
      exact absurd hkind h.1
    · exact hcs
    · rename_i body _ other _ _
      have hbody : body.completes = true :=
        completes_of_forall body fun u hu => h.2 u (by simp [subtreesOf_cons, hu])
      rw [hbody, Bool.true_or]
    · rfl

/-- Statements without a `return` can complete. -/
theorem completesAll_of_forall : ∀ cs : List Tree,
    (∀ u ∈ subtreesOf cs, u.kind ≠ .returnStatement) → completesAll cs = true
  | [], _ => rfl
  | c :: cs, h => by
    rw [subtreesOf_cons, List.forall_mem_append] at h
    rw [completesAll, completes_of_forall c h.1, completesAll_of_forall cs h.2, Bool.true_and]

end

/-- Without `return` statements there are no obstacles. -/
theorem unobstructed_of_no_return
    (h : ∀ i, root.Below id i → root.arena.kind? i ≠ some .returnStatement) :
    root.Unobstructed id n := by
  have hcompletes : ∀ j s, root.Below id j → root.subtree? j = some s → s.completes = true := by
    intro j s hj hs
    refine completes_of_forall s fun u hu hreturn => ?_
    obtain ⟨k, hk⟩ := List.mem_iff_getElem?.mp hu
    obtain ⟨hsub, hwithin⟩ := subtree?_trans hs hk
    have := Steps.size_pos u
    refine h (j + k) (hj.trans ((below_iff hs).mpr (by omega))) ?_
    rw [Arena.kind?_eq, hsub, Option.map_some, hreturn]
  intro p hp
  refine ⟨fun b hb hkind k j s hk hkn hj hjk hs => ?_,
    fun d init cond increment body hloop _ _ => ?_⟩
  · exact hcompletes j s (hp.trans (Arena.parent?_eq_some_iff.mp hj).below) hs
  · have hchild := isChild hloop [init, cond, increment] rfl
    exact hcompletes _ body (hp.trans hchild.below) (subtree?_child hloop rfl)

end Tree

namespace Steps

variable {root t : Tree} {cs : List Tree} {id n : Nat}

/-- The steps of a row that can be executed are those of a statement behind such as complete. -/
theorem mem_reachedOf : n ∈ reachedOf id cs ↔ ∃ ls c rs, cs = ls ++ c :: rs ∧
    (∀ b ∈ ls, b.completes = true) ∧ n ∈ reached (id + Tree.sizes ls) c := by
  induction cs generalizing id with
  | nil => simp [reachedOf]
  | cons c cs ih =>
      have hlater : (n ∈ if c.completes then reachedOf (id + c.size) cs else []) ↔
          c.completes = true ∧ n ∈ reachedOf (id + c.size) cs := by
        split <;> simp [*]
      rw [reachedOf, List.mem_append, hlater, ih]
      constructor
      · rintro (hn | ⟨hc, ls, b, rs, rfl, hls, hn⟩)
        · exact ⟨[], c, cs, rfl, by simp, hn⟩
        · exact ⟨c :: ls, b, rs, rfl, List.forall_mem_cons.mpr ⟨hc, hls⟩, by
            rwa [Tree.sizes, ← Nat.add_assoc]⟩
      · rintro ⟨ls, b, rs, hcs, hls, hn⟩
        cases ls with
        | nil =>
            obtain ⟨rfl, rfl⟩ := List.cons.inj hcs
            exact .inl hn
        | cons a ls =>
            obtain ⟨rfl, rfl⟩ := List.cons.inj hcs
            obtain ⟨hc, hls⟩ := List.forall_mem_cons.mp hls
            exact .inr ⟨hc, ls, b, rs, rfl, hls, by rwa [Tree.sizes, ← Nat.add_assoc] at hn⟩

/-- A step of a statement is below it. -/
theorem Statement.below_of_mem (h : Statement t) (hid : root.subtree? id = some t)
    (hn : n ∈ steps id t) : root.Below id n := (Tree.below_iff hid).mpr (h.range id n hn)

/-- The steps of a statement that can be executed are those without an obstacle on the way, wherever
the statement stands. -/
def Cleared (root t : Tree) : Prop :=
  ∀ {id n : Nat}, root.subtree? id = some t →
    (n ∈ reached id t ↔ n ∈ steps id t ∧ root.Unobstructed id n)

section Forms

variable {d e : Node} {init cond increment body other : Tree}

/-- A block is cleared, if its statements are. -/
theorem cleared_block (hkind : d.kind = .block) (hcs : ∀ c ∈ cs, Statement c)
    (h : ∀ c ∈ cs, Cleared root c) : Cleared root (.node d cs) := by
  intro id n hid
  rw [reached_block hkind, steps_block hkind, mem_reachedOf, mem_stepsOf]
  constructor
  · rintro ⟨ls, c, rs, hrow, hls, hn⟩
    have hc : c ∈ cs := hrow ▸ List.mem_append_right _ List.mem_cons_self
    have hchild := Tree.subtree?_child hid hrow
    obtain ⟨hn, hway⟩ := (h c hc hchild).mp hn
    have hbelow := (hcs c hc).below_of_mem hchild hn
    have hhere := (Tree.clearAt_block hid hkind hrow hbelow).mpr hls
    exact ⟨⟨ls, c, rs, hrow, hn⟩,
      (Tree.unobstructed_child (Tree.isChild hid ls hrow) hbelow).mpr ⟨hhere, hway⟩⟩
  · rintro ⟨⟨ls, c, rs, hrow, hn⟩, hway⟩
    have hc : c ∈ cs := hrow ▸ List.mem_append_right _ List.mem_cons_self
    have hchild := Tree.subtree?_child hid hrow
    have hbelow := (hcs c hc).below_of_mem hchild hn
    obtain ⟨hhere, hway⟩ :=
      (Tree.unobstructed_child (Tree.isChild hid ls hrow) hbelow).mp hway
    exact ⟨ls, c, rs, hrow, (Tree.clearAt_block hid hkind hrow hbelow).mp hhere,
      (h c hc hchild).mpr ⟨hn, hway⟩⟩

/-- A statement that is its own step is not behind an obstacle. -/
theorem cleared_self {t : Tree} (hreached : ∀ id, reached id t = [id])
    (hsteps : ∀ id, steps id t = [id]) : Cleared root t := by
  intro id n _
  rw [hreached, hsteps, List.mem_singleton]
  exact ⟨fun hn => ⟨hn, hn ▸ Tree.unobstructed_self⟩, And.left⟩

/-- A condition and one part behind it have no obstacle at the statement that they are of. -/
theorem cleared_guarded (hkind : d.kind = .ifStatement ∨ d.kind = .whileStatement)
    (hbody : Statement body) (h : Cleared root body)
    (hreached : ∀ id, reached id (.node d [cond, body]) =
      (id + 1) :: reached (id + 1 + cond.size) body)
    (hsteps : ∀ id, steps id (.node d [cond, body]) = (id + 1) :: steps (id + 1 + cond.size) body) :
    Cleared root (.node d [cond, body]) := by
  intro id n hid
  obtain ⟨-, hbodyId⟩ := Tree.subtree?_children hid
  obtain ⟨-, hbodyChild⟩ := Tree.isChild_children hid
  have hkind' : d.kind = .ifStatement ∨ d.kind = .elseClause ∨ d.kind = .whileStatement :=
    hkind.imp_right .inr
  have hfirst : n = id + 1 → root.Unobstructed id n := fun hn =>
    hn ▸ Tree.unobstructed_test hid hkind'
  have hinner : n ∈ steps (id + 1 + cond.size) body →
      (root.Unobstructed id n ↔ root.Unobstructed (id + 1 + cond.size) n) := fun hn =>
    Tree.unobstructed_part hid hkind' hbodyChild (hbody.below_of_mem hbodyId hn)
  rw [hreached, hsteps, List.mem_cons, List.mem_cons, h hbodyId, or_and_right,
    and_iff_left_of_imp hfirst, and_congr_right hinner]

/-- An `if` with two branches is cleared, if both are. -/
theorem cleared_ifElse (hkind : d.kind = .ifStatement) (helse : e.kind = .elseClause)
    (hcond : Inert cond) (hbody : Statement body) (hother : Statement other)
    (h : Cleared root body) (h' : Cleared root other) :
    Cleared root (.node d [cond, body, .node e [other]]) := by
  intro id n hid
  have hparts := Tree.branches hid
  have hfirst : n = id + 1 → root.Unobstructed id n := fun hn =>
    hn ▸ Tree.unobstructed_test hid (.inl hkind)
  have hinner : n ∈ steps (id + 1 + cond.size) body →
      (root.Unobstructed id n ↔ root.Unobstructed (id + 1 + cond.size) n) := fun hn =>
    Tree.unobstructed_part hid (.inl hkind) hparts.bodyChild (hbody.below_of_mem hparts.bodyId hn)
  have hinner' : n ∈ steps (id + 1 + cond.size + body.size + 1) other →
      (root.Unobstructed id n ↔
        root.Unobstructed (id + 1 + cond.size + body.size + 1) n) := by
    intro hn
    have hbelow := hother.below_of_mem hparts.otherId hn
    rw [Tree.unobstructed_part hid (.inl hkind) hparts.clauseChild
      (hparts.otherChild.below.trans hbelow)]
    exact Tree.unobstructed_part hparts.clauseId (.inr (.inl helse)) hparts.otherChild hbelow
  rw [reached_ifElse hkind, steps_ifElse hkind helse hcond, List.mem_cons, List.mem_cons,
    List.mem_append, List.mem_append, h hparts.bodyId, h' hparts.otherId, or_and_right,
    or_and_right, and_iff_left_of_imp hfirst, and_congr_right hinner, and_congr_right hinner']

/-- A `for` is cleared, if its body is. -/
theorem cleared_for (hkind : d.kind = .forStatement) (hinit : Inert init) (hcond : Inert cond)
    (hincrement : Inert increment) (hbody : Statement body) (h : Cleared root body) :
    Cleared root (.node d [init, cond, increment, body]) := by
  intro id n hid
  obtain ⟨hstartId, htestId, hnextId, hbodyId⟩ := Tree.subtree?_children hid
  obtain ⟨hstartChild, htestChild, hnextChild, hbodyChild⟩ := Tree.isChild_children hid
  have hpos := size_pos init
  have hpos' := size_pos cond
  have hpos'' := size_pos increment
  have hstart : n = id + 1 → root.Unobstructed id n := by
    rintro rfl
    refine (Tree.unobstructed_child hstartChild (Tree.below_self hstartId)).mpr
      ⟨?_, Tree.unobstructed_self⟩
    exact (Tree.clearAt_for (n := id + 1) hid hkind).mpr fun heq => by omega
  have htest : n = id + 1 + init.size → root.Unobstructed id n := by
    rintro rfl
    refine (Tree.unobstructed_child htestChild (Tree.below_self htestId)).mpr
      ⟨?_, Tree.unobstructed_self⟩
    exact (Tree.clearAt_for (n := id + 1 + init.size) hid hkind).mpr fun heq => by omega
  have hnext : n = id + 1 + init.size + cond.size →
      (root.Unobstructed id n ↔ body.completes = true) := by
    rintro rfl
    rw [Tree.unobstructed_child hnextChild (Tree.below_self hnextId),
      and_iff_left Tree.unobstructed_self, Tree.clearAt_for hid hkind]
    simp
  have hinner : n ∈ steps (id + 1 + init.size + cond.size + increment.size) body →
      (root.Unobstructed id n ↔
        root.Unobstructed (id + 1 + init.size + cond.size + increment.size) n) := by
    intro hn
    have hrange := hbody.range _ n hn
    exact (Tree.unobstructed_child hbodyChild (hbody.below_of_mem hbodyId hn)).trans
      (and_iff_right ((Tree.clearAt_for hid hkind).mpr fun heq => by omega))
  have hlast : (n ∈ if body.completes then [id + 1 + init.size + cond.size] else []) ↔
      body.completes = true ∧ n = id + 1 + init.size + cond.size := by
    split <;> simp [*]
  rw [reached_for hkind, mem_steps_for hkind hinit hcond hincrement]
  simp only [List.mem_cons, List.mem_append, hlast, h hbodyId, or_and_right,
    and_iff_left_of_imp hstart, and_iff_left_of_imp htest, and_congr_right hnext,
    and_congr_right hinner]
  grind

end Forms

/-- **The steps that can be executed** are those without an obstacle on the way. -/
theorem Statement.mem_reached_iff (h : Statement t) (hid : root.subtree? id = some t) :
    n ∈ reached id t ↔ n ∈ steps id t ∧ root.Unobstructed id n := by
  have hcleared : Cleared root t := by
    clear hid
    induction h with
    | block hkind parts ih => exact cleared_block hkind parts ih
    | plain hkind hinert =>
        exact cleared_self (fun _ => reached_plain hkind) fun _ => steps_plain hkind hinert
    | returns hkind hinert =>
        exact cleared_self (fun _ => reached_return hkind) fun _ => steps_return hkind hinert
    | ifThen hkind hcond hbody ih =>
        exact cleared_guarded (.inl hkind) hbody ih (fun _ => reached_ifThen hkind)
          fun _ => steps_ifThen hkind hcond
    | ifElse hkind helse hcond hbody hother ih ih' =>
        exact cleared_ifElse hkind helse hcond hbody hother ih ih'
    | whileLoop hkind hcond hbody ih =>
        exact cleared_guarded (.inr hkind) hbody ih (fun _ => reached_while hkind)
          fun _ => steps_while hkind hcond
    | forLoop hkind hinit hcond hincrement hbody ih =>
        exact cleared_for hkind hinit hcond hincrement hbody ih
  exact hcleared hid

/-- **The search of the graph** of a statement finds the steps that can be executed. -/
theorem Statement.mem_postorder_graph (h : Statement t) (hid : root.subtree? id = some t) :
    n ∈ (graph none id t).postorder ↔ n ∈ reached id t := by
  rw [h.closed_graph.mem_postorder_iff, h.entry_graph]
  constructor
  · rintro ⟨entry, hentry, hreaches⟩
    have hstart : (firstStep? id t).or none = some entry := by rwa [Option.or_none]
    induction hreaches with
    | refl => exact (h.mem_reached_of_start hstart).resolve_right fun hout => nomatch hout.1
    | tail _ hedge ih =>
        cases h.onward hid (mem_successors_graph.mp hedge) ih with
        | later hlater => exact hlater.subset (by simp)
        | back _ hm => exact hm
        | out hexit _ => cases hexit
  · intro hn
    cases hentry : firstStep? id t with
    | none =>
        rw [h.firstStep?_eq, List.head?_eq_none_iff] at hentry
        have hstep := h.reached_subset id hn
        rw [hentry] at hstep
        cases hstep
    | some entry =>
        have hattained := h.attained (k := entry) (List.Subset.refl (statementEdits none id t))
          fun k hk => by
            rw [hentry, Option.some_or, Option.some.injEq] at hk
            exact hk ▸ .refl
        exact ⟨entry, rfl, Relation.ReflTransGen.mono
          (fun _ _ hedge => mem_successors_graph.mpr hedge) _ _ (hattained.steps n hn)⟩

end Steps

/-- **Reachability can be told from the tree.**  The search of the graph of a method finds just the
steps to which nothing in the body is an obstacle; without `return` statements these are all
steps. -/
theorem mem_postorder_iff_unobstructed {source : Text} {d : Document} (h : parse source = .ok d)
    {m : Nat} (hm : m ∈ d.tree.methods) :
    ∃ g id body, d.arena.methodGraph m = .ok g ∧ d.methodBody? m = some (id, body) ∧
      d.tree.subtree? id = some body ∧
      (∀ n ∈ g.nodes, n ∈ g.postorder ↔ d.tree.Unobstructed id n) ∧
      ((∀ i, d.tree.Below id i → d.arena.kind? i ≠ some .returnStatement) →
        ∀ n ∈ g.nodes, n ∈ g.postorder) := by
  obtain ⟨id, body, hbody, hid, hstatement, hgraph⟩ := exists_methodBody h hm
  have hreached : ∀ n ∈ (Steps.graph none id body).nodes,
      (n ∈ (Steps.graph none id body).postorder ↔ d.tree.Unobstructed id n) := by
    intro n hn
    rw [hstatement.mem_postorder_graph hid, hstatement.mem_reached_iff hid]
    exact and_iff_right (hstatement.mem_nodes_graph.mp hn)
  refine ⟨_, id, body, hgraph, hbody, hid, hreached, fun hreturn n hn => (hreached n hn).mpr ?_⟩
  exact Tree.unobstructed_of_no_return hreturn

/-- Control comes past a loop, but to the incrementer of the loop and behind a `return` it does
not. -/
theorem mem_postorder_iff_unobstructed_returns : ∃ d g id body,
    parse "class A { int M() { for (a = 0; b; c) if (d) return 1; else return 2; return 3; ; } }".toList
        = .ok d ∧
      d.arena.methodGraph 2 = .ok g ∧ d.methodBody? 2 = some (id, body) ∧
        d.tree.Unobstructed id 17 ∧ ¬d.tree.Unobstructed id 9 ∧ ¬d.tree.Unobstructed id 19 := by
  have hread : (parse
      "class A { int M() { for (a = 0; b; c) if (d) return 1; else return 2; return 3; ; } }".toList
      ).toOption.any (fun d => d.tree.methods.contains 2 && (d.arena.methodGraph 2).toOption.all fun g =>
          g.nodes.contains 17 && g.nodes.contains 9 && g.nodes.contains 19 &&
            g.postorder.contains 17 && !g.postorder.contains 9 && !g.postorder.contains 19) =
      true := by
    decide +kernel
  obtain ⟨d, hd, hfacts⟩ := exists_document_of_any hread
  rw [Bool.and_eq_true] at hfacts
  obtain ⟨hmethod, hfacts⟩ := hfacts
  obtain ⟨g, id, body, hgraph, hbody, -, hiff, -⟩ :=
    mem_postorder_iff_unobstructed hd (m := 2) (List.contains_iff_mem.mp hmethod)
  rw [hgraph] at hfacts
  simp only [Except.toOption, Option.all_some, Bool.and_eq_true, Bool.not_eq_true',
    List.contains_eq_mem, decide_eq_true_eq, decide_eq_false_iff_not] at hfacts
  obtain ⟨⟨⟨⟨⟨hpast, hnext⟩, hdead⟩, hpastIn⟩, hnextOut⟩, hdeadOut⟩ := hfacts
  exact ⟨d, g, id, body, hd, hgraph, hbody, (hiff 17 hpast).mp hpastIn,
    fun hclear => hnextOut ((hiff 9 hnext).mpr hclear),
    fun hclear => hdeadOut ((hiff 19 hdead).mpr hclear)⟩

end SharpMutants
