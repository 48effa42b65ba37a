import SharpMutants.Proofs.Layout.Bare
import SharpMutants.Dataflow.MethodFlow

/-!
# Data flow does not depend on layout

Steps, the graph of a method and the definitions and uses of its steps are those of the bare
tree.  So the analysis of a method is, too: `MethodFlow.analyze_bare`.  How conditions are read
matters for nothing but the uses of the steps and for liveness (`MethodFlow.analyze_core`).
-/

namespace SharpMutants

/-- Induction over trees: the children of a node have the property, and so have theirs. -/
theorem Tree.induct_below {motive : Tree → Prop} (node : ∀ d cs,
    (∀ c ∈ cs, motive c ∧ ∀ u ∈ c.children, motive u) → motive (.node d cs)) (t : Tree) :
    motive t := by
  have hboth : motive t ∧ ∀ u ∈ t.children, motive u := by
    induction t using Tree.inductionOn with
    | node d cs ih => exact ⟨node d cs ih, fun u hu => (ih u hu).1⟩
  exact hboth.1

/-! ## The graph of a method -/

namespace Steps

/-- The first step of statements in a row does not depend on layout, if that of each does not. -/
theorem firstStepOf?_bare_of_forall {cs : List Tree}
    (h : ∀ c ∈ cs, ∀ id, firstStep? id c.bare = firstStep? id c) (id : Nat) :
    firstStepOf? id (cs.map Tree.bare) = firstStepOf? id cs := by
  induction cs generalizing id with
  | nil => rw [List.map_nil]
  | cons c cs ih =>
      rw [List.forall_mem_cons] at h
      rw [List.map_cons, firstStepOf?, firstStepOf?, h.1, Tree.size_bare, ih h.2]

@[simp] theorem firstStep?_bare (t : Tree) (id : Nat) : firstStep? id t.bare = firstStep? id t := by
  induction t using Tree.inductionOn generalizing id with
  | node d cs ih =>
      rw [Tree.bare_node, firstStep?, firstStep?, firstStepOf?_bare_of_forall ih,
        List.isEmpty_map, Node.kind_bare]

/-- The first step of statements in a row does not depend on layout. -/
@[simp] theorem firstStepOf?_bare (cs : List Tree) (id : Nat) :
    firstStepOf? id (cs.map Tree.bare) = firstStepOf? id cs :=
  firstStepOf?_bare_of_forall (fun c _ => firstStep?_bare c) id

/-- The edits of statements in a row do not depend on layout, if those of each do not. -/
theorem statementsEdits_bare {cs : List Tree}
    (h : ∀ c ∈ cs, ∀ exit id, statementEdits exit id c.bare = statementEdits exit id c)
    (exit : Option Nat) (id : Nat) :
    statementsEdits exit id (cs.map Tree.bare) = statementsEdits exit id cs := by
  induction cs generalizing id with
  | nil => rw [List.map_nil]
  | cons c cs ih =>
      rw [List.forall_mem_cons] at h
      rw [List.map_cons, statementsEdits, statementsEdits, h.1, Tree.size_bare, ih h.2,
        firstStepOf?_bare]

/-- The edits of a statement do not depend on layout. -/
theorem statementEdits_bare (t : Tree) (exit : Option Nat) (id : Nat) :
    statementEdits exit id t.bare = statementEdits exit id t := by
  -- The branch behind an `else` is a child of a child.
  induction t using Tree.induct_below generalizing exit id with
  | node d cs ih =>
      have hown := fun c hc => (ih c hc).1
      rw [Tree.bare_node, statementEdits.eq_def, statementEdits.eq_def]
      dsimp only
      rw [Node.kind_bare]
      cases d.kind with
      | block => exact statementsEdits_bare hown exit (id + 1)
      | ifStatement =>
          match cs, ih, hown with
          | [], _, _ | [_], _, _ => rfl
          | [cond, branch], _, hown => simp [hown]
          | cond :: branch :: .node clause [] :: more, _, hown => simp [hown, Tree.bare_node]
          | cond :: branch :: .node clause (other :: others) :: more, ih, hown =>
              have hclause := ih (.node clause (other :: others)) (by simp)
              have hother := hclause.2 other List.mem_cons_self
              simp [hown, hother, Tree.bare_node]
      | whileStatement =>
          match cs, hown with
          | [], _ | [_], _ => rfl
          | cond :: body :: more, hown => simp [hown]
      | forStatement =>
          match cs, hown with
          | [], _ | [_], _ | [_, _], _ | [_, _, _], _ | _ :: _ :: _ :: _ :: _ :: _, _ => rfl
          | [init, cond, step, body], hown => simp [hown]
      | _ => rfl

/-- The graph of a statement does not depend on layout. -/
theorem graph_bare (exit : Option Nat) (id : Nat) (t : Tree) :
    graph exit id t.bare = graph exit id t := by
  rw [graph, graph, firstStep?_bare, statementEdits_bare]

end Steps

namespace Arena

variable (a : Arena)

theorem methodGraph_bare (id : Nat) : a.bare.methodGraph id = a.methodGraph id := by
  rw [methodGraph, subtree?_bare, methodGraph]
  cases a.subtree? id with
  | none => rfl
  | some t =>
      dsimp only [Option.map_some]
      rw [Tree.kind_bare, Tree.children_bare, Tree.numberFrom_bare, Tree.bareNumbered,
        List.getLast?_map]
      cases t.kind.isMethod with
      | false => rfl
      | true =>
          cases (Tree.numberFrom (id + 1) t.children).getLast? with
          | none => rfl
          | some last => exact congrArg Except.ok (Steps.graph_bare none last.1 last.2)

end Arena

/-! ## Definitions and uses -/

namespace Variables

/-- The identifiers in a tree do not depend on layout. -/
theorem identifiersIn_bare (id : Nat) (t : Tree) :
    identifiersIn id t.bare = identifiersIn id t := by
  rw [identifiersIn, Tree.subtrees_bare, List.zipIdx_map, List.filterMap_map, identifiersIn]
  congr 1
  funext e
  simp

/-- The first assignment in a tree does not depend on layout. -/
theorem firstAssignment?_bare (id : Nat) (t : Tree) : firstAssignment? id t.bare =
    (firstAssignment? id t).map fun a => (a.1, a.2.bare) := by
  rw [firstAssignment?, Tree.subtrees_bare, List.zipIdx_map, List.findSome?_map, firstAssignment?,
    List.map_findSome?]
  congr 1
  funext e
  simp only [Function.comp_apply, Prod.map, id_eq, Tree.kind_bare]
  cases e.1.kind <;> rfl

theorem nameOf?_bare (t : Tree) : nameOf? t.bare = nameOf? t := by
  induction t using Tree.inductionOn with
  | node d cs ih =>
      rw [Tree.bare_node, nameOf?.eq_def, nameOf?.eq_def]
      dsimp only
      rw [Node.kind_bare]
      cases d.kind with
      | parenthesized =>
          cases cs with
          | nil => rfl
          | cons inner more => exact ih inner List.mem_cons_self
      | _ => rfl

/-- What a tree declares does not depend on layout. -/
theorem declaration?_bare (step : Nat) (t : Tree) : declaration? step t.bare =
    (declaration? step t).map fun a => (a.1, a.2.bare) := by
  rw [declaration?, declaration?, Tree.kind_bare, Tree.children_bare]
  cases t.kind with
  | localDeclaration => cases t.children <;> rfl
  | _ => rfl

theorem declaredNames_bare (t : Tree) : declaredNames t.bare = declaredNames t := by
  rw [declaredNames, declaredNames, Tree.children_bare, List.filterMap_map]
  congr 1
  funext c
  rw [Function.comp_apply, Tree.kind_bare]

/-- The definitions at a step do not depend on layout. -/
theorem definitions_bare (step : Nat) (t : Tree) :
    definitions step t.bare = definitions step t := by
  rw [definitions, definitions, firstAssignment?_bare, declaration?_bare]
  cases firstAssignment? step t with
  | some found =>
      have hname : nameOf? ∘ Tree.bare = nameOf? := funext nameOf?_bare
      simp only [Option.map_some, Tree.children_bare, List.head?_map, Option.bind_map, hname]
  | none =>
      cases declaration? step t with
      | none => rfl
      | some found => simp only [Option.map_some, Option.map_none, declaredNames_bare]

/-- The names in an initializer do not depend on layout. -/
theorem initializerNames_bare (id : Nat) (t : Tree) :
    initializerNames id t.bare = initializerNames id t := by
  simp [initializerNames, Tree.numberFrom_bare, Tree.bareNumbered, List.flatMap_map,
    identifiersIn_bare]

/-- The uses in an assignment do not depend on layout. -/
theorem assignmentUses_bare (site : Nat) (t : Tree) :
    assignmentUses site t.bare = assignmentUses site t := by
  simp only [assignmentUses, Tree.kind_bare, Tree.children_bare, Tree.numberFrom_bare,
    Tree.bareNumbered]
  rcases Tree.numberFrom (site + 1) t.children with _ | ⟨target, _ | ⟨value, more⟩⟩
  · rfl
  · simp [identifiersIn_bare]
  · simp [identifiersIn_bare]

/-- The uses at a step do not depend on layout. -/
theorem uses_bare (conditionUses isCondition : Bool) (step : Nat) (t : Tree) :
    uses conditionUses isCondition step t.bare = uses conditionUses isCondition step t := by
  rw [uses, uses, identifiersIn_bare, firstAssignment?_bare, declaration?_bare]
  cases firstAssignment? step t with
  | some found => simp only [Option.map_some, assignmentUses_bare]
  | none =>
      cases declaration? step t with
      | none => rfl
      | some found => simp only [Option.map_some, Option.map_none, initializerNames_bare]

end Variables

/-! ## The analysis -/

namespace Arena

variable (a : Arena)

theorem definitionsAt_bare : a.bare.definitionsAt = a.definitionsAt := by
  funext step
  rw [definitionsAt, subtree?_bare, definitionsAt]
  cases a.subtree? step with
  | none => rfl
  | some t => exact Variables.definitions_bare step t

/-- The uses at a node do not depend on layout. -/
theorem usesAt_bare (conditionUses : Bool) :
    a.bare.usesAt conditionUses = a.usesAt conditionUses := by
  funext step
  rw [usesAt, subtree?_bare, isCondition_bare, usesAt]
  cases a.subtree? step with
  | none => rfl
  | some t => exact Variables.uses_bare conditionUses _ step t

end Arena

namespace MethodFlow

theorem useIndex_bare (a : Arena) (g : FlowGraph) : useIndex a.bare g = useIndex a g := by
  rw [useIndex, useIndex]
  congr 1
  funext index step
  rw [Arena.subtree?_bare]
  cases a.subtree? step with
  | none => rfl
  | some t =>
      dsimp only [Option.map_some]
      rw [Variables.identifiersIn_bare]

/-- **The analysis of a method** is that of the bare tree. -/
theorem analyze_bare (a : Arena) (conditionUses : Bool) (m : Nat) :
    analyze a.bare conditionUses m = analyze a conditionUses m := by
  simp only [analyze, Arena.methodGraph_bare, Arena.definitionsAt_bare, Arena.usesAt_bare,
    useIndex_bare]

/-- What the mutators ask of an analysis. -/
def core (f : MethodFlow) : Table UseSite × FlowSolution Fact := (f.uses, f.reaching)

/-- **The reading of conditions** is of no concern to the mutators. -/
theorem analyze_core (a : Arena) (conditionUses conditionUses' : Bool) (m : Nat) :
    (analyze a conditionUses m).map core = (analyze a conditionUses' m).map core := by
  unfold analyze
  cases a.methodGraph m with
  | error e => rfl
  | ok g => simp only [bind, Except.bind, pure, Except.pure, Except.map, core]

variable {f f' : MethodFlow}

theorem covers_congr (h : f.core = f'.core) (id : Nat) : f.covers id = f'.covers id := by
  rw [covers, (Prod.mk.inj h).1, covers]

/-- What an analysis answers about a use depends on its core only. -/
theorem reachingDefinitions_congr (h : f.core = f'.core) (id : Nat) :
    f.reachingDefinitions id = f'.reachingDefinitions id := by
  obtain ⟨huses, hreaching⟩ := Prod.mk.inj h
  simp only [reachingDefinitions, reachingIn?, huses, hreaching]

end MethodFlow

end SharpMutants
