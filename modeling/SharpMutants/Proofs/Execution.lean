import Mathlib.Logic.Relation
import SharpMutants.Dataflow.Steps

/-!
# The order in which a body is executed

A structured program is executed by a stack of work: the statements that are still
to be run, and the heads of the `for` loops around them.  A `Move` takes the first
piece of work apart.  Moves that execute a step are labelled with it; a block is
taken apart without one.  Every condition may turn out either way, and a `return`
drops all that is left.

`Located body K` says that the execution of a body comes to the stack `K`, if
statements may also be passed over: that is how control would come to dead code.
`RightAfter` is the order of steps that the moves give.  For the statements of the
language (`Statement`) the step ahead of a stack is a function of the stack,
`ahead?`.
-/

namespace SharpMutants

namespace Steps

/-- A `for` loop at a node. -/
structure ForLoop where
  id : Nat
  init : Tree
  cond : Tree
  increment : Tree
  body : Tree

namespace ForLoop

/-- The step that runs the initializer. -/
def start (l : ForLoop) : Nat := l.id + 1

/-- The step that evaluates the condition. -/
def test (l : ForLoop) : Nat := l.start + l.init.size

/-- The step that runs the incrementer. -/
def next (l : ForLoop) : Nat := l.test + l.cond.size

/-- The node of the body. -/
def first (l : ForLoop) : Nat := l.next + l.increment.size

end ForLoop

/-- What is still to be done. -/
inductive Work where
  /-- The statement at a node. -/
  | run (id : Nat) (t : Tree)
  /-- A loop, from its condition on. -/
  | test (loop : ForLoop)
  /-- A loop, from its incrementer on. -/
  | next (loop : ForLoop)

/-- Running statements one after another, the first of them at a node. -/
def Work.runs (id : Nat) : List Tree → List Work
  | [] => []
  | c :: cs => .run id c :: runs (id + c.size) cs

/-- What is executed as a whole, and lets the next statement run. -/
def plain : Kind → Bool
  | .localDeclaration | .expressionStatement | .emptyStatement => true
  | _ => false

open Work in
/-- One move of the execution, with the step that it executes. -/
inductive Move : List Work → Option Nat → List Work → Prop
  | block {id : Nat} {d : Node} {cs : List Tree} {K : List Work} (hkind : d.kind = .block) :
      Move (run id (.node d cs) :: K) none (runs (id + 1) cs ++ K)
  | plain {id : Nat} {d : Node} {cs : List Tree} {K : List Work} (hkind : plain d.kind = true) :
      Move (run id (.node d cs) :: K) (some id) K
  | returns {id : Nat} {d : Node} {cs : List Tree} {K : List Work}
      (hkind : d.kind = .returnStatement) : Move (run id (.node d cs) :: K) (some id) []
  | ifTrue {id : Nat} {d : Node} {cond body : Tree} {cs : List Tree} {K : List Work}
      (hkind : d.kind = .ifStatement) :
      Move (run id (.node d (cond :: body :: cs)) :: K) (some (id + 1))
        (run (id + 1 + cond.size) body :: K)
  | ifFalse {id : Nat} {d : Node} {cond body : Tree} {K : List Work}
      (hkind : d.kind = .ifStatement) :
      Move (run id (.node d [cond, body]) :: K) (some (id + 1)) K
  | ifElse {id : Nat} {d e : Node} {cond body other : Tree} {K : List Work}
      (hkind : d.kind = .ifStatement) (helse : e.kind = .elseClause) :
      Move (run id (.node d [cond, body, .node e [other]]) :: K) (some (id + 1))
        (run (id + 1 + cond.size + body.size + 1) other :: K)
  | whileTrue {id : Nat} {d : Node} {cond body : Tree} {K : List Work}
      (hkind : d.kind = .whileStatement) :
      Move (run id (.node d [cond, body]) :: K) (some (id + 1))
        (run (id + 1 + cond.size) body :: run id (.node d [cond, body]) :: K)
  | whileFalse {id : Nat} {d : Node} {cond body : Tree} {K : List Work}
      (hkind : d.kind = .whileStatement) :
      Move (run id (.node d [cond, body]) :: K) (some (id + 1)) K
  | forStart {id : Nat} {d : Node} {init cond increment body : Tree} {K : List Work}
      (hkind : d.kind = .forStatement) :
      Move (run id (.node d [init, cond, increment, body]) :: K) (some (id + 1))
        (test ⟨id, init, cond, increment, body⟩ :: K)
  | forTrue {l : ForLoop} {K : List Work} :
      Move (test l :: K) (some l.test) (run l.first l.body :: next l :: K)
  | forFalse {l : ForLoop} {K : List Work} : Move (test l :: K) (some l.test) K
  | forNext {l : ForLoop} {K : List Work} : Move (next l :: K) (some l.next) (test l :: K)

/-- A move without a step. -/
def Silent (K K' : List Work) : Prop := Move K none K'

/-- A step that may be the next to be executed. -/
def Ahead (K : List Work) (n : Nat) : Prop :=
  ∃ K₁ K₂, Relation.ReflTransGen Silent K K₁ ∧ Move K₁ (some n) K₂

/-- The execution of the statement at a node comes to a stack, if it may pass over statements. -/
inductive Located (id : Nat) (t : Tree) : List Work → Prop
  | start : Located id t [.run id t]
  | move {K K' : List Work} {n : Option Nat} (here : Located id t K) (move : Move K n K') :
      Located id t K'
  | skip {i : Nat} {s : Tree} {K : List Work} (here : Located id t (.run i s :: K)) :
      Located id t K

/-- One step may be executed immediately after another. -/
def RightAfter (id : Nat) (t : Tree) (n m : Nat) : Prop :=
  ∃ K K', Located id t K ∧ Move K (some n) K' ∧ Ahead K' m

/-! ## The steps of a tree -/

/-- The steps that a node gives, apart from those of the nodes below it. -/
def own (id : Nat) (k : Kind) (cs : List Tree) : List Nat :=
  match k, cs with
  | .localDeclaration, _ | .expressionStatement, _ | .emptyStatement, _ | .returnStatement, _ =>
    [id]
  | .ifStatement, _ | .whileStatement, _ => [id + 1]
  | .forStatement, init :: cond :: _ =>
    [id + 1, id + 1 + init.size, id + 1 + init.size + cond.size]
  | _, _ => []

/-- The steps of some trees, each with the number of its node. -/
def stepsAmong (ts : List (Tree × Nat)) : List Nat :=
  ts.flatMap fun (t, n) => own n t.kind t.children

/-- The steps of the statement at a node: those of all nodes of its tree. -/
def steps (id : Nat) (t : Tree) : List Nat := stepsAmong (t.subtrees.zipIdx id)

/-- The steps of the trees of a list, the first of them at a node. -/
def stepsOf (id : Nat) (cs : List Tree) : List Nat :=
  stepsAmong ((Tree.subtreesOf cs).zipIdx id)

/-- The steps of a node are its own and those of its children. -/
theorem steps_node (id : Nat) (d : Node) (cs : List Tree) :
    steps id (.node d cs) = own id d.kind cs ++ stepsOf (id + 1) cs := by
  rw [steps, Tree.subtrees_node, List.zipIdx_cons, stepsAmong, List.flatMap_cons]
  rfl

theorem stepsOf_nil (id : Nat) : stepsOf id [] = [] := by
  rw [stepsOf, Tree.subtreesOf_nil]
  rfl

/-- The steps of trees in a row are those of the first and of the others behind it. -/
theorem stepsOf_cons (id : Nat) (c : Tree) (cs : List Tree) :
    stepsOf id (c :: cs) = steps id c ++ stepsOf (id + c.size) cs := by
  rw [stepsOf, Tree.subtreesOf_cons, List.zipIdx_append, Tree.length_subtrees, stepsAmong,
    List.flatMap_append]
  rfl

/-- The steps of trees in a row are those of one of the trees. -/
theorem mem_stepsOf {id n : Nat} {cs : List Tree} : n ∈ stepsOf id cs ↔
    ∃ ls c rs, cs = ls ++ c :: rs ∧ n ∈ steps (id + Tree.sizes ls) c := by
  induction cs generalizing id with
  | nil => simp [stepsOf_nil]
  | cons c cs ih =>
      rw [stepsOf_cons, List.mem_append, ih]
      constructor
      · rintro (hn | ⟨ls, b, rs, rfl, hn⟩)
        · exact ⟨[], c, cs, rfl, hn⟩
        · exact ⟨c :: ls, b, rs, rfl, by rwa [Tree.sizes, ← Nat.add_assoc]⟩
      · rintro ⟨ls, b, rs, hcs, hn⟩
        cases ls with
        | nil =>
            obtain ⟨rfl, rfl⟩ := List.cons.inj hcs
            exact .inl hn
        | cons a ls =>
            obtain ⟨rfl, rfl⟩ := List.cons.inj hcs
            exact .inr ⟨ls, b, rs, rfl, by rwa [Tree.sizes, ← Nat.add_assoc] at hn⟩

theorem size_pos (t : Tree) : 0 < t.size := by
  cases t
  rw [Tree.size]
  omega

/-- A tree without steps. -/
def Inert (t : Tree) : Prop := ∀ id, steps id t = []

/-- Trees without steps have none in a row. -/
theorem stepsOf_inert {cs : List Tree} (h : ∀ c ∈ cs, Inert c) (id : Nat) : stepsOf id cs = [] := by
  induction cs generalizing id with
  | nil => exact stepsOf_nil id
  | cons c cs ih =>
      rw [stepsOf_cons, h c List.mem_cons_self, ih fun c hc => h c (List.mem_cons_of_mem _ hc)]
      rfl

/-! ## Statements -/

/-- The statements of the language, as far as their execution depends on them. -/
inductive Statement : Tree → Prop
  | block {d : Node} {cs : List Tree} (hkind : d.kind = .block)
      (parts : ∀ c ∈ cs, Statement c) : Statement (.node d cs)
  | plain {d : Node} {cs : List Tree} (hkind : plain d.kind = true)
      (hinert : ∀ c ∈ cs, Inert c) : Statement (.node d cs)
  | returns {d : Node} {cs : List Tree} (hkind : d.kind = .returnStatement)
      (hinert : ∀ c ∈ cs, Inert c) : Statement (.node d cs)
  | ifThen {d : Node} {cond body : Tree} (hkind : d.kind = .ifStatement) (hcond : Inert cond)
      (hbody : Statement body) : Statement (.node d [cond, body])
  | ifElse {d e : Node} {cond body other : Tree} (hkind : d.kind = .ifStatement)
      (helse : e.kind = .elseClause) (hcond : Inert cond) (hbody : Statement body)
      (hother : Statement other) : Statement (.node d [cond, body, .node e [other]])
  | whileLoop {d : Node} {cond body : Tree} (hkind : d.kind = .whileStatement)
      (hcond : Inert cond) (hbody : Statement body) : Statement (.node d [cond, body])
  | forLoop {d : Node} {init cond increment body : Tree} (hkind : d.kind = .forStatement)
      (hinit : Inert init) (hcond : Inert cond) (hincrement : Inert increment)
      (hbody : Statement body) : Statement (.node d [init, cond, increment, body])

section Equations

variable {id : Nat} {d e : Node} {cs : List Tree} {cond body other init increment : Tree}

/-- The steps of a block are those of its statements. -/
theorem steps_block (hkind : d.kind = .block) : steps id (.node d cs) = stepsOf (id + 1) cs := by
  rw [steps_node, hkind]
  rfl

/-- A plain statement is one step. -/
theorem steps_plain (hkind : plain d.kind = true) (hinert : ∀ c ∈ cs, Inert c) :
    steps id (.node d cs) = [id] := by
  rw [steps_node, stepsOf_inert hinert, List.append_nil]
  revert hkind
  cases d.kind <;> first | exact fun _ => rfl | (intro h; cases h)

/-- A `return` is one step. -/
theorem steps_return (hkind : d.kind = .returnStatement) (hinert : ∀ c ∈ cs, Inert c) :
    steps id (.node d cs) = [id] := by
  rw [steps_node, stepsOf_inert hinert, hkind]
  rfl

/-- The steps of an `if` are its condition and those of its branch. -/
theorem steps_ifThen (hkind : d.kind = .ifStatement) (hcond : Inert cond) :
    steps id (.node d [cond, body]) = (id + 1) :: steps (id + 1 + cond.size) body := by
  rw [steps_node, hkind, stepsOf_cons, hcond, stepsOf_cons, stepsOf_nil, List.append_nil]
  rfl

/-- The steps of an `if` with two branches are its condition and those of both. -/
theorem steps_ifElse (hkind : d.kind = .ifStatement) (helse : e.kind = .elseClause)
    (hcond : Inert cond) : steps id (.node d [cond, body, .node e [other]]) =
      (id + 1) :: (steps (id + 1 + cond.size) body ++
        steps (id + 1 + cond.size + body.size + 1) other) := by
  rw [steps_node, hkind, stepsOf_cons, hcond, stepsOf_cons, stepsOf_cons, stepsOf_nil, steps_node,
    helse, stepsOf_cons, stepsOf_nil, List.append_nil, List.append_nil]
  rfl

/-- The steps of a `while` are its condition and those of its body. -/
theorem steps_while (hkind : d.kind = .whileStatement) (hcond : Inert cond) :
    steps id (.node d [cond, body]) = (id + 1) :: steps (id + 1 + cond.size) body := by
  rw [steps_node, hkind, stepsOf_cons, hcond, stepsOf_cons, stepsOf_nil, List.append_nil]
  rfl

/-- The steps of a `for` are its initializer, its condition, its incrementer and those of its
body. -/
theorem steps_for (hkind : d.kind = .forStatement) (hinit : Inert init) (hcond : Inert cond)
    (hincrement : Inert increment) : steps id (.node d [init, cond, increment, body]) =
      [id + 1, id + 1 + init.size, id + 1 + init.size + cond.size] ++
        steps (id + 1 + init.size + cond.size + increment.size) body := by
  rw [steps_node, hkind, stepsOf_cons, hinit, stepsOf_cons, hcond, stepsOf_cons, hincrement,
    stepsOf_cons, stepsOf_nil, List.append_nil]
  rfl

/-- A step of a `for` is one of its three own or one of its body. -/
theorem mem_steps_for {n : Nat} (hkind : d.kind = .forStatement) (hinit : Inert init)
    (hcond : Inert cond) (hincrement : Inert increment) :
    n ∈ steps id (.node d [init, cond, increment, body]) ↔
      n = id + 1 ∨ n = id + 1 + init.size ∨ n = id + 1 + init.size + cond.size ∨
        n ∈ steps (id + 1 + init.size + cond.size + increment.size) body := by
  rw [steps_for hkind hinit hcond hincrement]
  simp only [List.mem_append, List.mem_cons, List.not_mem_nil, or_false, or_assoc]

/-- The first step of a block is that of its statements. -/
theorem firstStep?_block (hkind : d.kind = .block) :
    firstStep? id (.node d cs) = firstStepOf? (id + 1) cs := by
  rw [firstStep?, hkind]

/-- The first step of a plain statement is the statement. -/
theorem firstStep?_plain (hkind : plain d.kind = true) : firstStep? id (.node d cs) = some id := by
  rw [firstStep?]
  revert hkind
  cases d.kind <;> first | exact fun _ => rfl | (intro h; cases h)

/-- The first step of a `return` is the `return`. -/
theorem firstStep?_return (hkind : d.kind = .returnStatement) :
    firstStep? id (.node d cs) = some id := by
  rw [firstStep?, hkind]

/-- The first step of an `if` or a loop is its first child. -/
theorem firstStep?_compound {c : Tree}
    (hkind : d.kind = .ifStatement ∨ d.kind = .whileStatement ∨ d.kind = .forStatement) :
    firstStep? id (.node d (c :: cs)) = some (id + 1) := by
  rw [firstStep?]
  rcases hkind with h | h | h <;> rw [h] <;> rfl

end Equations

/-! ## The moves of a statement -/

section Moves

variable {id : Nat} {d e : Node} {cs : List Tree} {cond body other init increment : Tree}
  {K K' : List Work} {n : Option Nat} {l : ForLoop}

/-- A block puts its statements on the stack. -/
theorem move_block (hkind : d.kind = .block) :
    Move (.run id (.node d cs) :: K) n K' ↔ n = none ∧ K' = Work.runs (id + 1) cs ++ K := by
  constructor
  · intro h
    cases h <;> simp_all [plain]
  · rintro ⟨rfl, rfl⟩
    exact .block hkind

/-- A plain statement is executed, and what is below it on the stack comes next. -/
theorem move_plain (hkind : plain d.kind = true) :
    Move (.run id (.node d cs) :: K) n K' ↔ n = some id ∧ K' = K := by
  constructor
  · intro h
    cases h <;> simp_all [plain]
  · rintro ⟨rfl, rfl⟩
    exact .plain hkind

/-- A `return` is executed, and nothing comes next. -/
theorem move_return (hkind : d.kind = .returnStatement) :
    Move (.run id (.node d cs) :: K) n K' ↔ n = some id ∧ K' = [] := by
  constructor
  · intro h
    cases h <;> simp_all [plain]
  · rintro ⟨rfl, rfl⟩
    exact .returns hkind

/-- An `if` evaluates its condition, and its branch comes next or is passed over. -/
theorem move_ifThen (hkind : d.kind = .ifStatement) :
    Move (.run id (.node d [cond, body]) :: K) n K' ↔
      n = some (id + 1) ∧ (K' = .run (id + 1 + cond.size) body :: K ∨ K' = K) := by
  constructor
  · intro h
    cases h <;> simp_all [plain]
  · rintro ⟨rfl, rfl | rfl⟩
    · exact .ifTrue hkind
    · exact .ifFalse hkind

/-- An `if` with two branches evaluates its condition, and one of them comes next. -/
theorem move_ifElse (hkind : d.kind = .ifStatement) (helse : e.kind = .elseClause) :
    Move (.run id (.node d [cond, body, .node e [other]]) :: K) n K' ↔
      n = some (id + 1) ∧ (K' = .run (id + 1 + cond.size) body :: K ∨
        K' = .run (id + 1 + cond.size + body.size + 1) other :: K) := by
  constructor
  · intro h
    cases h <;> simp_all [plain]
  · rintro ⟨rfl, rfl | rfl⟩
    · exact .ifTrue hkind
    · exact .ifElse hkind helse

/-- A `while` evaluates its condition, and its body and then itself come next, or it ends. -/
theorem move_while (hkind : d.kind = .whileStatement) :
    Move (.run id (.node d [cond, body]) :: K) n K' ↔
      n = some (id + 1) ∧ (K' = .run (id + 1 + cond.size) body ::
        .run id (.node d [cond, body]) :: K ∨ K' = K) := by
  constructor
  · intro h
    cases h <;> simp_all [plain]
  · rintro ⟨rfl, rfl | rfl⟩
    · exact .whileTrue hkind
    · exact .whileFalse hkind

/-- A `for` runs its initializer, and its condition comes next. -/
theorem move_for (hkind : d.kind = .forStatement) :
    Move (.run id (.node d [init, cond, increment, body]) :: K) n K' ↔
      n = some (id + 1) ∧ K' = .test ⟨id, init, cond, increment, body⟩ :: K := by
  constructor
  · intro h
    cases h <;> simp_all [plain]
  · rintro ⟨rfl, rfl⟩
    exact .forStart hkind

/-- The condition of a `for` is evaluated, and the body and the incrementer come next, or it
ends. -/
theorem move_test : Move (.test l :: K) n K' ↔
    n = some l.test ∧ (K' = .run l.first l.body :: .next l :: K ∨ K' = K) := by
  constructor
  · intro h
    cases h <;> simp
  · rintro ⟨rfl, rfl | rfl⟩
    · exact .forTrue
    · exact .forFalse

/-- The incrementer of a `for` is run, and its condition comes next. -/
theorem move_next : Move (.next l :: K) n K' ↔ n = some l.next ∧ K' = .test l :: K := by
  constructor
  · intro h
    cases h
    exact ⟨rfl, rfl⟩
  · rintro ⟨rfl, rfl⟩
    exact .forNext

end Moves

/-! ## The step ahead -/

/-- The step that is executed next. -/
def ahead? : List Work → Option Nat
  | [] => none
  | .run id t :: K => (firstStep? id t).or (ahead? K)
  | .test l :: _ => some l.test
  | .next l :: _ => some l.next

/-- Ahead of statements on the stack is their first step, or else what is ahead of the rest. -/
theorem ahead?_runs (id : Nat) (cs : List Tree) (K : List Work) :
    ahead? (Work.runs id cs ++ K) = (firstStepOf? id cs).or (ahead? K) := by
  induction cs generalizing id with
  | nil => rw [Work.runs, firstStepOf?, Option.none_or, List.nil_append]
  | cons c cs ih =>
      rw [Work.runs, List.cons_append, ahead?, ih, firstStepOf?, Option.or_assoc]

theorem Silent.ahead?_eq {K K' : List Work} (h : Silent K K') : ahead? K' = ahead? K := by
  cases h with
  | block hkind => rw [ahead?_runs, ahead?, firstStep?_block hkind]

/-- The step that a move executes was ahead. -/
theorem Move.ahead?_eq {K K' : List Work} {n : Nat} (h : Move K (some n) K') :
    ahead? K = some n := by
  cases h with
  | plain hkind => rw [ahead?, firstStep?_plain hkind, Option.some_or]
  | returns hkind => rw [ahead?, firstStep?_return hkind, Option.some_or]
  | ifTrue hkind => rw [ahead?, firstStep?_compound (.inl hkind), Option.some_or]
  | ifFalse hkind => rw [ahead?, firstStep?_compound (.inl hkind), Option.some_or]
  | ifElse hkind => rw [ahead?, firstStep?_compound (.inl hkind), Option.some_or]
  | whileTrue hkind => rw [ahead?, firstStep?_compound (.inr (.inl hkind)), Option.some_or]
  | whileFalse hkind => rw [ahead?, firstStep?_compound (.inr (.inl hkind)), Option.some_or]
  | forStart hkind => rw [ahead?, firstStep?_compound (.inr (.inr hkind)), Option.some_or]
  | forTrue => rfl
  | forFalse => rfl
  | forNext => rfl

/-- A stack whose statements are those of the language. -/
def Proper (K : List Work) : Prop :=
  ∀ w ∈ K, match w with
    | .run _ t => Statement t
    | .test l | .next l => Statement l.body

/-- What is below the top of a proper stack is proper. -/
theorem Proper.tail {w : Work} {K : List Work} (h : Proper (w :: K)) : Proper K :=
  fun v hv => h v (List.mem_cons_of_mem w hv)

/-- The step of a move is one that may be next. -/
theorem Ahead.of_move {K K' : List Work} {n : Nat} (h : Move K (some n) K') : Ahead K n :=
  ⟨K, K', .refl, h⟩

/-- What may be next after a move without a step may be next before it. -/
theorem Ahead.of_silent {K K' : List Work} {n : Nat} (h : Silent K K') (hn : Ahead K' n) :
    Ahead K n := by
  obtain ⟨K₁, K₂, hsilent, hmove⟩ := hn
  exact ⟨K₁, K₂, .head h hsilent, hmove⟩

/-- Blocks are taken apart until a step is the first thing to do. -/
theorem Statement.ahead {t : Tree} (h : Statement t) {id : Nat} {K : List Work}
    (hK : ∀ n, ahead? K = some n → Ahead K n) {n : Nat}
    (hn : ahead? (.run id t :: K) = some n) : Ahead (.run id t :: K) n := by
  induction h generalizing id K n with
  | @block d cs hkind parts ih =>
      have hruns (ds : List Tree) : ds ⊆ cs → ∀ id n,
          ahead? (Work.runs id ds ++ K) = some n → Ahead (Work.runs id ds ++ K) n := by
        induction ds with
        | nil => exact fun _ _ => hK
        | cons c ds ihds =>
            intro hds id n hn
            obtain ⟨hc, hds⟩ := List.cons_subset.mp hds
            exact ih c hc (ihds hds (id + c.size)) hn
      have hsilent : Silent (.run id (.node d cs) :: K) (Work.runs (id + 1) cs ++ K) := .block hkind
      rw [← hsilent.ahead?_eq] at hn
      exact .of_silent hsilent (hruns cs (List.Subset.refl cs) (id + 1) n hn)
  | plain hkind _ =>
      rw [ahead?, firstStep?_plain hkind, Option.some_or, Option.some.injEq] at hn
      exact hn ▸ .of_move (.plain hkind)
  | returns hkind _ =>
      rw [ahead?, firstStep?_return hkind, Option.some_or, Option.some.injEq] at hn
      exact hn ▸ .of_move (.returns hkind)
  | ifThen hkind _ _ _ =>
      rw [ahead?, firstStep?_compound (.inl hkind), Option.some_or, Option.some.injEq] at hn
      exact hn ▸ .of_move (.ifFalse hkind)
  | ifElse hkind helse _ _ _ _ _ =>
      rw [ahead?, firstStep?_compound (.inl hkind), Option.some_or, Option.some.injEq] at hn
      exact hn ▸ .of_move (.ifElse hkind helse)
  | whileLoop hkind _ _ _ =>
      rw [ahead?, firstStep?_compound (.inr (.inl hkind)), Option.some_or, Option.some.injEq] at hn
      exact hn ▸ .of_move (.whileFalse hkind)
  | forLoop hkind _ _ _ _ _ =>
      rw [ahead?, firstStep?_compound (.inr (.inr hkind)), Option.some_or, Option.some.injEq] at hn
      exact hn ▸ .of_move (.forStart hkind)

theorem Ahead.ahead?_eq {K : List Work} {n : Nat} (h : Ahead K n) : ahead? K = some n := by
  obtain ⟨K₁, K₂, hsilent, hmove⟩ := h
  induction hsilent using Relation.ReflTransGen.head_induction_on with
  | refl => exact hmove.ahead?_eq
  | head hfirst _ ih => rw [← hfirst.ahead?_eq, ih]

/-- **The step ahead** of a stack of statements of the language is its `ahead?`. -/
theorem Proper.ahead_iff {K : List Work} (h : Proper K) {n : Nat} :
    Ahead K n ↔ ahead? K = some n := by
  refine ⟨Ahead.ahead?_eq, ?_⟩
  induction K generalizing n with
  | nil => nofun
  | cons w K ih =>
      intro hn
      cases w with
      | run id t => exact (h _ List.mem_cons_self).ahead (fun n => ih h.tail) hn
      | test l =>
          obtain rfl : l.test = n := Option.some.inj hn
          exact .of_move .forFalse
      | next l =>
          obtain rfl : l.next = n := Option.some.inj hn
          exact .of_move .forNext

end Steps

end SharpMutants
