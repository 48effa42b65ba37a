import SharpMutants.Proofs.Dataflow.LoopCount

/-!
# Cyclomatic complexity counts the conditions with a choice

A step of a method has two successors at most, and only a condition can have two.  So the edges
exceed the steps with a successor by the number of conditions with two successors, and the
complexity is one more than that number (`FlowGraph.cyclomatic_eq`), or two more for a
graph in which every step has a successor.

Whether a condition has two successors can be told from the tree (`Tree.choices`): the condition
of a loop has if a step follows the loop, that of an `if` if two of its branches, the missing one
being the way past it, lead to different steps.
-/

namespace SharpMutants

/-! ## Conditions with a choice -/

namespace Tree

/-- A statement has a step. -/
def hasSteps (t : Tree) : Bool := (Steps.firstStep? 0 t).isSome

mutual

/-- Number of the conditions in a statement that have two different steps to go on to, by whether
a step follows the statement. -/
def choices (followed : Bool) : Tree → Nat
  | .node d cs =>
    match d.kind, cs with
    | .block, body => choicesOf followed body
    | .ifStatement, _ :: thenBranch :: rest =>
      match rest with
      | .node _ (other :: _) :: _ =>
        (followed.atLeastTwo thenBranch.hasSteps other.hasSteps).toNat +
          (choices followed thenBranch + choices followed other)
      | _ => (followed && thenBranch.hasSteps).toNat + choices followed thenBranch
    | .whileStatement, _ :: body :: _ => followed.toNat + choices true body
    | .forStatement, [_, _, _, body] => followed.toNat + choices true body
    | _, _ => 0

/-- Number of the conditions with two different steps to go on to in a row of statements. -/
def choicesOf (followed : Bool) : List Tree → Nat
  | [] => 0
  | c :: cs => choices (cs.any hasSteps || followed) c + choicesOf followed cs

end

/-- The statements with a condition. -/
def isDecision : Kind → Bool
  | .ifStatement | .whileStatement | .forStatement => true
  | _ => false

/-- Number of `if`, `while` and `for` statements in a tree. -/
def decisions (t : Tree) : Nat := t.subtrees.countP fun s => isDecision s.kind

section Equations

variable {followed : Bool} {d e : Node} {cs : List Tree} {cond body other init increment : Tree}

/-- The choices of a block are those of its statements in a row. -/
theorem choices_block (hkind : d.kind = .block) :
    choices followed (.node d cs) = choicesOf followed cs := by
  cases d
  cases hkind
  rfl

/-- A plain statement has no choice. -/
theorem choices_plain (hkind : Steps.plain d.kind = true) : choices followed (.node d cs) = 0 := by
  rw [choices.eq_def]
  dsimp only
  revert hkind
  cases d.kind <;> first | exact fun _ => rfl | (intro h; cases h)

/-- A `return` has no choice. -/
theorem choices_return (hkind : d.kind = .returnStatement) :
    choices followed (.node d cs) = 0 := by
  cases d
  cases hkind
  rfl

/-- The condition of an `if` is a choice if its branch has steps and a step follows. -/
theorem choices_ifThen (hkind : d.kind = .ifStatement) : choices followed (.node d [cond, body]) =
    (followed && body.hasSteps).toNat + choices followed body := by
  rw [choices.eq_def]
  dsimp only
  rw [hkind]

/-- The condition of an `if` with two branches is a choice if two of the three ways on have a
step. -/
theorem choices_ifElse (hkind : d.kind = .ifStatement) :
    choices followed (.node d [cond, body, .node e [other]]) =
      (followed.atLeastTwo body.hasSteps other.hasSteps).toNat +
        (choices followed body + choices followed other) := by
  rw [choices.eq_def]
  dsimp only
  rw [hkind]

/-- The condition of a `while` is a choice if a step follows. -/
theorem choices_while (hkind : d.kind = .whileStatement) :
    choices followed (.node d [cond, body]) = followed.toNat + choices true body := by
  rw [choices.eq_def]
  dsimp only
  rw [hkind]

/-- The condition of a `for` is a choice if a step follows. -/
theorem choices_for (hkind : d.kind = .forStatement) :
    choices followed (.node d [init, cond, increment, body]) =
      followed.toNat + choices true body := by
  rw [choices.eq_def]
  dsimp only
  rw [hkind]

end Equations

end Tree

/-! ## Edges and steps -/

namespace FlowGraph

variable {g : FlowGraph}

/-- Whether a node has two successors. -/
def forks (g : FlowGraph) (n : Nat) : Bool := (g.successors n).length == 2

/-- Edges and leaves are as many as nodes and forks. -/
theorem length_edges_add {ns : List Nat} (h : ∀ n ∈ ns, (g.successors n).length ≤ 2) :
    (ns.flatMap fun n => (g.successors n).map fun m => (n, m)).length +
        (ns.filter fun n => (g.successors n).isEmpty).length = ns.length + ns.countP g.forks := by
  induction ns with
  | nil => rfl
  | cons n ns ih =>
      obtain ⟨hn, hns⟩ := List.forall_mem_cons.mp h
      have hrest := ih hns
      rw [List.flatMap_cons, List.length_append, List.length_map, List.length_cons,
        List.countP_cons, List.filter_cons, forks]
      -- Three cases: no successor, one, or two.
      match hsuccessors : g.successors n, hn with
      | [], _ => grind
      | [_], _ => grind
      | [_, _], _ => grind

/-- **Cyclomatic complexity** counts the forks, and one for a graph in which each node has a
successor. -/
theorem cyclomatic_eq (h : ∀ n, (g.successors n).length ≤ 2) : g.cyclomatic =
    1 + g.nodes.countP g.forks + if g.nodes ≠ [] ∧ g.leaves = [] then 1 else 0 := by
  have hcount : g.edgeCount + g.leaves.length = g.nodes.length + g.nodes.countP g.forks :=
    length_edges_add fun n _ => h n
  have hsize : g.size = g.nodes.length := List.length_reverse.symm
  rw [cyclomatic, hsize]
  by_cases hempty : g.nodes = []
  · have hbuilt : g.built = [] := List.reverse_eq_nil_iff.mp hempty
    simp [hempty, hbuilt]
  · have hbuilt : g.built ≠ [] := fun hbuilt => hempty (List.reverse_eq_nil_iff.mpr hbuilt)
    rw [if_neg (by simpa using hbuilt)]
    by_cases hleaf : g.leaves = []
    · rw [if_pos ⟨hempty, hleaf⟩]
      rw [hleaf, List.length_nil] at hcount ⊢
      omega
    · have hpos := List.length_pos_iff.mpr hleaf
      rw [if_neg fun h => hleaf h.2]
      omega

end FlowGraph

/-! ## Forks of a statement -/

namespace Steps

mutual

/-- A statement has a step at one place if it has one at another. -/
theorem isSome_firstStep?_eq (id id' : Nat) :
    ∀ t : Tree, (firstStep? id t).isSome = (firstStep? id' t).isSome
  | .node d cs => by
    rw [firstStep?.eq_def, firstStep?.eq_def id']
    dsimp only
    split
    · exact isSome_firstStepOf?_eq (id + 1) (id' + 1) cs
    · split <;> rfl
    · split <;> rfl
    · split <;> rfl
    · rfl
    · rfl
    · rfl
    · rfl
    · rfl

/-- Whether statements in a row have a first step does not depend on their numbers. -/
theorem isSome_firstStepOf?_eq (id id' : Nat) :
    ∀ cs : List Tree, (firstStepOf? id cs).isSome = (firstStepOf? id' cs).isSome
  | [] => rfl
  | c :: cs => by
    rw [firstStepOf?, firstStepOf?, Option.isSome_or, Option.isSome_or,
      isSome_firstStep?_eq id id' c, isSome_firstStepOf?_eq (id + c.size) (id' + c.size) cs]

end

/-- A statement has a first step, at whatever node it is, if it has steps. -/
theorem isSome_firstStep? (id : Nat) (t : Tree) : (firstStep? id t).isSome = t.hasSteps :=
  isSome_firstStep?_eq id 0 t

/-- Statements in a row have a first step if one of them has steps. -/
theorem isSome_firstStepOf? (id : Nat) (cs : List Tree) :
    (firstStepOf? id cs).isSome = cs.any Tree.hasSteps := by
  induction cs generalizing id with
  | nil => rfl
  | cons c cs ih => rw [firstStepOf?, Option.isSome_or, isSome_firstStep?, ih, List.any_cons]

/-- Edges lead from a node to two different ones. -/
def Forks (edits : List GraphEdit) (n : Nat) : Prop :=
  ∃ m m', m ≠ m' ∧ .edge n m ∈ edits ∧ .edge n m' ∈ edits

variable {edits : List GraphEdit} {exit first second : Option Nat} {id n : Nat} {root t : Tree}

/-- A node forks if edges lead to two steps from it and these are not the same. -/
theorem forks_iff (h : ∀ m, .edge n m ∈ edits ↔ first = some m ∨ second = some m) :
    Forks edits n ↔ ∃ m m', first = some m ∧ second = some m' ∧ m ≠ m' := by
  simp only [Forks, h]
  constructor
  · rintro ⟨m, m', hne, hm | hm, hm' | hm'⟩
    · exact absurd (Option.some.inj (hm.symm.trans hm')) hne
    · exact ⟨m, m', hm, hm', hne⟩
    · exact ⟨m', m, hm', hm, hne.symm⟩
    · exact absurd (Option.some.inj (hm.symm.trans hm')) hne
  · rintro ⟨m, m', hm, hm', hne⟩
    exact ⟨m, m', hne, .inl hm, .inr hm'⟩

/-- A step that is there, as a step that may be there. -/
theorem eq_iff_some {k m : Nat} : m = k ↔ some k = some m := eq_comm.trans Option.some_inj.symm

/-- A node with edges to one step at most does not fork. -/
theorem forks_one_iff (h : ∀ m, .edge n m ∈ edits ↔ first = some m) :
    Forks edits n ↔ false = true := by
  refine iff_of_false ?_ Bool.false_ne_true
  rintro ⟨m, m', hne, hm, hm'⟩
  exact hne (Option.some.inj (((h m).mp hm).symm.trans ((h m').mp hm')))

/-- Control goes into a branch or past it: these are two steps if the branch has a step and a step
follows. -/
theorem into_or_past_iff (h : ∀ m, first = some m → exit ≠ some m) :
    (∃ m m', first.or exit = some m ∧ exit = some m' ∧ m ≠ m') ↔
      (exit.isSome && first.isSome) = true := by
  cases first with
  | none => cases exit <;> simp
  | some m =>
      have hm := h m rfl
      cases exit <;> grind

/-- Control goes into one of two branches or past it: these are two steps if two of the three are
there. -/
theorem into_or_into_iff (h : ∀ m, first = some m → exit ≠ some m)
    (h' : ∀ m, second = some m → exit ≠ some m) (hne : ∀ m, first = some m → second ≠ some m) :
    (∃ m m', first.or exit = some m ∧ second.or exit = some m' ∧ m ≠ m') ↔
      exit.isSome.atLeastTwo first.isSome second.isSome = true := by
  cases first with
  | none => cases second <;> cases exit <;> grind
  | some m => cases second <;> cases exit <;> grind

/-- Control goes round a loop or past it: these are two steps if a step follows. -/
theorem round_or_past_iff {round : Nat} (h : exit ≠ some round) :
    (∃ m m', some round = some m ∧ exit = some m' ∧ m ≠ m') ↔ exit.isSome = true := by
  rw [Option.isSome_iff_exists]
  constructor
  · rintro ⟨m, m', -, hm', -⟩
    exact ⟨m', hm'⟩
  · rintro ⟨m', hm'⟩
    exact ⟨round, m', rfl, hm', fun heq => h (heq ▸ hm')⟩

/-- The step after a statement is none of the nodes of a range. -/
def Outside (exit : Option Nat) (lo hi : Nat) : Prop := ∀ e, exit = some e → e < lo ∨ hi ≤ e

/-- A step outside of a range is outside of a narrower one. -/
theorem Outside.narrow {lo hi lo' hi' : Nat} (h : Outside exit lo hi) (hlo : lo ≤ lo')
    (hhi : hi' ≤ hi) : Outside exit lo' hi' := fun e he => by
  have := h e he
  omega

theorem outside_some {e lo hi : Nat} (h : e < lo ∨ hi ≤ e) : Outside (some e) lo hi :=
  fun _ he => Option.some.inj he ▸ h

/-- The first step of a statement is a node of the statement. -/
theorem Statement.firstStep?_range (ht : Statement t) {m : Nat} (hm : firstStep? id t = some m) :
    id ≤ m ∧ m < id + t.size := by
  rw [ht.firstStep?_eq] at hm
  exact ht.range id m (List.mem_of_head? hm)

/-- The nodes that fork, of a statement whose nodes have the edges of the statement. -/
def Counts (edits : List GraphEdit) (p : Nat → Bool) (t : Tree) : Prop :=
  ∀ exit id, Owns edits (statementEdits exit id t) id (id + t.size) →
    Outside exit id (id + t.size) → (steps id t).countP p = t.choices exit.isSome

variable {p : Nat → Bool}

/-- A row of statements has as many forks as choices, if each of them has. -/
theorem countsOf {cs : List Tree} (hcs : ∀ c ∈ cs, Statement c) (h : ∀ c ∈ cs, Counts edits p c)
    (howns : Owns edits (statementsEdits exit id cs) id (id + Tree.sizes cs))
    (hout : Outside exit id (id + Tree.sizes cs)) :
    (stepsOf id cs).countP p = Tree.choicesOf exit.isSome cs := by
  induction cs generalizing id with
  | nil =>
      rw [stepsOf_nil]
      rfl
  | cons c cs ih =>
      obtain ⟨hc, hcs⟩ := List.forall_mem_cons.mp hcs
      obtain ⟨hhere, hlater⟩ := List.forall_mem_cons.mp h
      obtain ⟨hownsHere, hownsLater⟩ := howns.cons hc hcs
      rw [Tree.sizes] at hout
      have hfirst : (steps id c).countP p =
          c.choices ((firstStepOf? (id + c.size) cs).or exit).isSome := by
        refine hhere _ id hownsHere fun e he => ?_
        rcases mem_of_startOf hcs he with he | he
        · have := stepsOf_range (fun c hc => (hcs c hc).range) _ e he
          omega
        · have := hout e he
          omega
      have hrest : (stepsOf (id + c.size) cs).countP p = Tree.choicesOf exit.isSome cs :=
        ih hcs hlater hownsLater (hout.narrow (by omega) (by omega))
      rw [Option.isSome_or, isSome_firstStepOf?] at hfirst
      rw [stepsOf_cons, List.countP_append, hfirst, hrest, Tree.choicesOf]

/-- The way round a loop leads to one of its nodes, so it is not the way past it. -/
theorem Statement.ne_round {body : Tree} (hbody : Statement body) {lo hi first test : Nat}
    (hout : Outside exit lo hi) (htest : lo ≤ test ∧ test < hi)
    (hfirst : lo ≤ first ∧ first + body.size ≤ hi) :
    exit ≠ some ((firstStep? first body).getD test) := by
  intro hexit
  have := hout _ hexit
  rcases hbody.getD_mem first test with hin | heq
  · have := hbody.range _ _ hin
    omega
  · omega

section Counting

variable (hp : ∀ n, p n = true ↔ Forks edits n) {d e : Node} {cs : List Tree}
  {init cond increment body other : Tree}

include hp

/-- A node before others adds one if it forks. -/
theorem countP_cons_eq {b : Bool} (hb : Forks edits n ↔ b = true) (ns : List Nat) :
    (n :: ns).countP p = b.toNat + ns.countP p := by
  have heq : p n = b := Bool.eq_iff_iff.mpr ((hp n).trans hb)
  rw [List.countP_cons, heq, Nat.add_comm]
  cases b <;> rfl

/-- A plain statement has no fork and no choice. -/
theorem counts_plain (hkind : plain d.kind = true) (hinert : ∀ c ∈ cs, Inert c) :
    Counts edits p (.node d cs) := by
  intro exit id howns hout
  rw [steps_plain hkind hinert, countP_cons_eq hp (forks_one_iff fun _ => howns.plain hkind),
    Tree.choices_plain hkind]
  rfl

/-- A `return` has no fork and no choice. -/
theorem counts_return (hkind : d.kind = .returnStatement) (hinert : ∀ c ∈ cs, Inert c) :
    Counts edits p (.node d cs) := by
  intro exit id howns hout
  have hedge : ∀ m, .edge id m ∈ edits ↔ none = some m := fun m =>
    iff_of_false (howns.returns hkind) nofun
  rw [steps_return hkind hinert, countP_cons_eq hp (forks_one_iff hedge),
    Tree.choices_return hkind]
  rfl

/-- An `if` has as many forks as choices, if its branch has. -/
theorem counts_ifThen (hkind : d.kind = .ifStatement) (hcond : Inert cond) (hbody : Statement body)
    (h : Counts edits p body) : Counts edits p (.node d [cond, body]) := by
  intro exit id howns hout
  obtain ⟨hedge, hpart⟩ := howns.ifThen hkind hbody
  have hpos := size_pos cond
  simp only [Tree.size, Tree.sizes] at hout
  have hinner := h exit (id + 1 + cond.size) hpart (hout.narrow (by omega) (by omega))
  have hfork : Forks edits (id + 1) ↔ (exit.isSome && body.hasSteps) = true := by
    rw [forks_iff hedge, ← isSome_firstStep? (id + 1 + cond.size) body]
    refine into_or_past_iff fun m hm hexit => ?_
    have := hbody.firstStep?_range hm
    have := hout m hexit
    omega
  rw [steps_ifThen hkind hcond, countP_cons_eq hp hfork, hinner, Tree.choices_ifThen hkind]

/-- An `if` with two branches has as many forks as choices, if both have. -/
theorem counts_ifElse (hkind : d.kind = .ifStatement) (helse : e.kind = .elseClause)
    (hcond : Inert cond) (hbody : Statement body) (hother : Statement other)
    (h : Counts edits p body) (h' : Counts edits p other) :
    Counts edits p (.node d [cond, body, .node e [other]]) := by
  intro exit id howns hout
  obtain ⟨hedge, hpart, hpart'⟩ := howns.ifElse hkind helse hbody hother
  have hpos := size_pos cond
  simp only [Tree.size, Tree.sizes] at hout
  have hinner := h exit (id + 1 + cond.size) hpart (hout.narrow (by omega) (by omega))
  have hinner' := h' exit (id + 1 + cond.size + body.size + 1) hpart'
    (hout.narrow (by omega) (by omega))
  have hfork : Forks edits (id + 1) ↔
      exit.isSome.atLeastTwo body.hasSteps other.hasSteps = true := by
    rw [forks_iff hedge, ← isSome_firstStep? (id + 1 + cond.size) body,
      ← isSome_firstStep? (id + 1 + cond.size + body.size + 1) other]
    refine into_or_into_iff (fun m hm hexit => ?_) (fun m hm hexit => ?_) fun m hm hm' => ?_
    · have := hbody.firstStep?_range hm
      have := hout m hexit
      omega
    · have := hother.firstStep?_range hm
      have := hout m hexit
      omega
    · have := hbody.firstStep?_range hm
      have := hother.firstStep?_range hm'
      omega
  rw [steps_ifElse hkind helse hcond, countP_cons_eq hp hfork, List.countP_append, hinner, hinner',
    Tree.choices_ifElse hkind]

/-- A `while` has as many forks as choices, if its body has. -/
theorem counts_while (hkind : d.kind = .whileStatement) (hcond : Inert cond)
    (hbody : Statement body) (h : Counts edits p body) :
    Counts edits p (.node d [cond, body]) := by
  intro exit id howns hout
  obtain ⟨htest, hpart⟩ := howns.whileLoop hkind hbody
  have hpos := size_pos cond
  simp only [Tree.size, Tree.sizes] at hout
  have hinner := h (some (id + 1)) (id + 1 + cond.size) hpart (outside_some (.inl (by omega)))
  have hfork : Forks edits (id + 1) ↔ exit.isSome = true := by
    rw [forks_iff fun m => (htest m).trans (or_congr_left eq_iff_some)]
    exact round_or_past_iff (hbody.ne_round hout (by omega) (by omega))
  rw [steps_while hkind hcond, countP_cons_eq hp hfork, hinner, Tree.choices_while hkind]
  rfl

/-- A `for` has as many forks as choices, if its body has. -/
theorem counts_for (hkind : d.kind = .forStatement) (hinit : Inert init) (hcond : Inert cond)
    (hincrement : Inert increment) (hbody : Statement body) (h : Counts edits p body) :
    Counts edits p (.node d [init, cond, increment, body]) := by
  intro exit id howns hout
  have hloop := howns.forLoop hkind
  have hpos := size_pos init
  have hpos' := size_pos cond
  have hpos'' := size_pos increment
  simp only [Tree.size, Tree.sizes] at hout
  have hinner := h (some (id + 1 + init.size + cond.size))
    (id + 1 + init.size + cond.size + increment.size) hloop.body (outside_some (.inl (by omega)))
  have hstart : Forks edits (id + 1) ↔ false = true :=
    forks_one_iff fun m => (hloop.start hbody).trans eq_iff_some
  have hnext : Forks edits (id + 1 + init.size + cond.size) ↔ false = true :=
    forks_one_iff fun m => (hloop.next hbody).trans eq_iff_some
  have hround : exit ≠ some ((firstStep? (id + 1 + init.size + cond.size + increment.size) body).getD
      (id + 1 + init.size + cond.size)) := hbody.ne_round hout (by omega) (by omega)
  have hfork : Forks edits (id + 1 + init.size) ↔ exit.isSome = true :=
    (forks_iff fun m => (hloop.test hbody).trans (or_congr_left eq_iff_some)).trans
      (round_or_past_iff hround)
  rw [steps_for hkind hinit hcond hincrement, List.cons_append, List.cons_append,
    List.cons_append, List.nil_append, countP_cons_eq hp hstart, countP_cons_eq hp hfork,
    countP_cons_eq hp hnext, hinner, Tree.choices_for hkind]
  simp

/-- **The nodes that fork** are the conditions that have a choice. -/
theorem Statement.counts (ht : Statement t) : Counts edits p t := by
  induction ht with
  | @block d cs hkind parts ih =>
      intro exit id howns hout
      rw [Tree.size] at hout
      rw [steps_block hkind, Tree.choices_block hkind]
      exact countsOf parts ih (howns.block hkind) (hout.narrow (by omega) (by omega))
  | plain hkind hinert => exact counts_plain hp hkind hinert
  | returns hkind hinert => exact counts_return hp hkind hinert
  | ifThen hkind hcond hbody ih => exact counts_ifThen hp hkind hcond hbody ih
  | ifElse hkind helse hcond hbody hother ih ih' =>
      exact counts_ifElse hp hkind helse hcond hbody hother ih ih'
  | whileLoop hkind hcond hbody ih => exact counts_while hp hkind hcond hbody ih
  | forLoop hkind hinit hcond hincrement hbody ih =>
      exact counts_for hp hkind hinit hcond hincrement hbody ih

end Counting

/-- A list of at most two nodes without repetitions has two if they differ. -/
theorem length_beq_two_iff {l : List Nat} (hnodup : l.Nodup) (hle : l.length ≤ 2) :
    (l.length == 2) = true ↔ ∃ m m', m ≠ m' ∧ m ∈ l ∧ m' ∈ l := by
  match l, hle with
  | [], _ => simp
  | [_], _ => simp
  | [a, b], _ =>
      have hab : a ≠ b := by simpa using hnodup
      simp only [List.length_cons, List.length_nil, beq_self_eq_true, true_iff]
      exact ⟨a, b, hab, by simp, by simp⟩

/-- **The forks of the graph** of a statement are as many as its conditions with a choice. -/
theorem Statement.countP_forks (ht : Statement t) (hid : root.subtree? id = some t) :
    (graph none id t).nodes.countP (graph none id t).forks = t.choices false := by
  have hforks : ∀ n, (graph none id t).forks n = true ↔ Forks (statementEdits none id t) n := by
    intro n
    have hnodup : ((graph none id t).successors n).Nodup :=
      FlowGraph.nodup_successors_build _ n
    rw [FlowGraph.forks, length_beq_two_iff hnodup ((ht.isOrder id).branching n)]
    simp only [mem_successors_graph, Forks]
  have hperm : (graph none id t).nodes.Perm (steps id t) :=
    (List.perm_ext_iff_of_nodup ht.closed_graph.nodup (ht.apart hid).nodup).mpr
      fun n => ht.mem_nodes_graph
  rw [hperm.countP_eq]
  exact ht.counts hforks none id (fun _ _ _ _ => Iff.rfl) nofun

end Steps

namespace Tree

variable {t : Tree} {d : Node} {cs : List Tree}

/-- The decisions in a tree are those in its children, and its root if it has a condition. -/
theorem decisions_node :
    (node d cs).decisions = (isDecision d.kind).toNat + (cs.map decisions).sum := by
  have hof : ∀ cs : List Tree,
      (subtreesOf cs).countP (fun s => isDecision s.kind) = (cs.map decisions).sum := by
    intro cs
    induction cs with
    | nil =>
        rw [subtreesOf_nil]
        rfl
    | cons c cs ih =>
        rw [subtreesOf_cons, List.countP_append, ih, List.map_cons, List.sum_cons, decisions]
  rw [decisions, subtrees_node, List.countP_cons, hof, Nat.add_comm, kind, root]
  cases isDecision d.kind <;> rfl

/-- A row of statements has no more choices than decisions, if none of them has. -/
theorem choicesOf_le (hcs : ∀ c ∈ cs, ∀ followed, c.choices followed ≤ c.decisions)
    (followed : Bool) : choicesOf followed cs ≤ (cs.map decisions).sum := by
  induction cs with
  | nil => exact Nat.le_refl 0
  | cons c cs ih =>
      obtain ⟨hc, hcs⟩ := List.forall_mem_cons.mp hcs
      rw [choicesOf, List.map_cons, List.sum_cons]
      exact Nat.add_le_add (hc _) (ih hcs)

/-- There are no more conditions with a choice than there are conditions. -/
theorem choices_le_decisions (ht : Steps.Statement t) (followed : Bool) :
    t.choices followed ≤ t.decisions := by
  induction ht generalizing followed with
  | block hkind parts ih =>
      rw [choices_block hkind, decisions_node]
      exact Nat.le_add_left_of_le (choicesOf_le ih followed)
  | plain hkind =>
      rw [choices_plain hkind]
      exact Nat.zero_le _
  | returns hkind =>
      rw [choices_return hkind]
      exact Nat.zero_le _
  | @ifThen d cond body hkind hcond hbody ih =>
      have hchoice := Bool.toNat_le (followed && body.hasSteps)
      have hinner := ih followed
      rw [choices_ifThen hkind, decisions_node, hkind, isDecision, Bool.toNat_true]
      simp only [List.map_cons, List.sum_cons]
      omega
  | @ifElse d e cond body other hkind helse hcond hbody hother ihBody ihOther =>
      have hchoice := Bool.toNat_le (followed.atLeastTwo body.hasSteps other.hasSteps)
      have hinner := ihBody followed
      have hinner' := ihOther followed
      rw [choices_ifElse hkind, decisions_node, hkind, isDecision, Bool.toNat_true]
      simp only [List.map_cons, List.sum_cons, decisions_node (d := e)]
      omega
  | @whileLoop d cond body hkind hcond hbody ih =>
      have hchoice := Bool.toNat_le followed
      have hinner := ih true
      rw [choices_while hkind, decisions_node, hkind, isDecision, Bool.toNat_true]
      simp only [List.map_cons, List.sum_cons]
      omega
  | @forLoop d init cond increment body hkind hinit hcond hincrement hbody ih =>
      have hchoice := Bool.toNat_le followed
      have hinner := ih true
      rw [choices_for hkind, decisions_node, hkind, isDecision, Bool.toNat_true]
      simp only [List.map_cons, List.sum_cons]
      omega

end Tree

/-- **Cyclomatic complexity counts the conditions with a choice.**  The complexity of the graph of
a method is one more than the number of those of the `if`, `while` and `for` statements of the body
whose condition has two different steps to go on to, and one more again if the body has steps and
each of them leads to another. -/
theorem cyclomatic_eq_choices {source : Text} {d : Document} (h : parse source = .ok d) {m : Nat}
    (hm : m ∈ d.tree.methods) :
    ∃ g id body, d.arena.methodGraph m = .ok g ∧ d.methodBody? m = some (id, body) ∧
      d.tree.subtree? id = some body ∧
      g.cyclomatic =
        1 + body.choices false + (if g.nodes ≠ [] ∧ g.leaves = [] then 1 else 0) ∧
      g.nodes.countP g.forks = body.choices false ∧ body.choices false ≤ body.decisions := by
  obtain ⟨id, body, hbodyId, hid, hbody, hgraph⟩ := exists_methodBody h hm
  have hcount := hbody.countP_forks hid
  refine ⟨_, id, body, hgraph, hbodyId, hid, ?_, hcount, Tree.choices_le_decisions hbody false⟩
  rw [FlowGraph.cyclomatic_eq (hbody.isOrder id).branching, hcount]

/-- A choice between two branches with one in the first, a loop with one in its body, an `if`
with nothing to do and, behind a `return`, a loop with nothing after it. -/
def branchingMethod : Text :=
  ("class C \x7b int M(int n) \x7b if (n > 0) \x7b if (n > 1) n = 1; \x7d else \x7b \x7d " ++
    "while (n > 0) if (n == 1) return n; else n = 0; if (n < 0) \x7b \x7d " ++
    "return n; while (n > 9) n = 9; \x7d \x7d").toList

/-- Six conditions, four of them with a choice. -/
theorem cyclomatic_eq_choices_branching : ∃ d g id body,
    parse branchingMethod = .ok d ∧ d.arena.methodGraph 2 = .ok g ∧
      d.methodBody? 2 = some (id, body) ∧ body.decisions = 6 ∧ body.choices false = 4 ∧
      g.leaves ≠ [] ∧ g.cyclomatic = 5 := by
  have hread : (parse branchingMethod).toOption.any (fun d => d.tree.methods.contains 2 &&
      (d.methodBody? 2).any (fun e => e.2.decisions == 6 && e.2.choices false == 4) &&
      (d.arena.methodGraph 2).toOption.any fun g => !g.leaves.isEmpty) = true := by
    decide +kernel
  obtain ⟨d, hd, hfacts⟩ := exists_document_of_any hread
  simp only [Bool.and_eq_true] at hfacts
  obtain ⟨⟨hmethod, hcounts⟩, hleaves⟩ := hfacts
  obtain ⟨g, id, body, hgraph, hbody, -, hcomplexity, -, -⟩ :=
    cyclomatic_eq_choices hd (m := 2) (List.contains_iff_mem.mp hmethod)
  rw [hbody, Option.any_some, Bool.and_eq_true, beq_iff_eq, beq_iff_eq] at hcounts
  have hleaf : g.leaves ≠ [] := by
    rw [hgraph, Except.toOption, Option.any_some] at hleaves
    simpa using hleaves
  refine ⟨d, g, id, body, hd, hgraph, hbody, hcounts.1, hcounts.2, hleaf, ?_⟩
  rw [hcomplexity, hcounts.2, if_neg fun h => hleaf h.2]

/-- An `if` at the end of a method has no way past its branch.  Each step is reached and there is
one condition, but the complexity is one. -/
theorem cyclomatic_ne_decisions : ∃ d g id body,
    parse "class C \x7b void M(int n) \x7b if (n > 0) n = 1; \x7d \x7d".toList = .ok d ∧
      2 ∈ d.tree.methods ∧ d.arena.methodGraph 2 = .ok g ∧
      d.methodBody? 2 = some (id, body) ∧ (∀ n ∈ g.nodes, n ∈ g.postorder) ∧
      body.decisions = 1 ∧ g.cyclomatic = 1 ∧ g.cyclomatic ≠ 1 + body.decisions := by
  have hread : (parse "class C \x7b void M(int n) \x7b if (n > 0) n = 1; \x7d \x7d".toList
      ).toOption.any (fun d => d.tree.methods.contains 2 &&
        (d.arena.methodGraph 2).toOption.any (fun g =>
          g.nodes.all g.postorder.contains && g.cyclomatic == 1) &&
        (d.methodBody? 2).any fun e => e.2.decisions == 1) = true := by
    decide +kernel
  obtain ⟨d, hd, hfacts⟩ := exists_document_of_any hread
  simp only [Bool.and_eq_true] at hfacts
  obtain ⟨⟨hmethod, hmade⟩, hcounted⟩ := hfacts
  obtain ⟨g, hgraph, hfacts⟩ := exists_ok_of_any hmade
  obtain ⟨⟨id, body⟩, hbody, hdecisions⟩ := (Option.any_eq_true _ _).mp hcounted
  obtain ⟨hreached, hcomplexity⟩ := Bool.and_eq_true_iff.mp hfacts
  rw [beq_iff_eq] at hcomplexity hdecisions
  have hne : g.cyclomatic ≠ 1 + body.decisions := by
    rw [hcomplexity, hdecisions]
    decide
  exact ⟨d, g, id, body, hd, List.contains_iff_mem.mp hmethod, hgraph, hbody,
    fun n hn => List.contains_iff_mem.mp (List.all_eq_true.mp hreached n hn), hdecisions,
    hcomplexity, hne⟩

end SharpMutants
