import Std.Data.TreeMap.Lemmas
import SharpMutants.Dataflow.FlowGraph

/-!
# What a list of edits builds

A node is in a built graph exactly if an edit names it, and the successors of a node
are the targets of the edges from it.  A graph keeps its list of nodes and its table
of successors in step (`Keyed`).
-/

namespace SharpMutants

namespace GraphEdit

/-- The nodes that an edit brings into a graph. -/
def ends : GraphEdit → List Nat
  | node n => [n]
  | edge source target => [source, target]
  | entry _ => []

end GraphEdit

namespace FlowGraph

variable {g : FlowGraph} {n m k : Nat}

/-- The listed nodes are those of the table, each once. -/
structure Keyed (g : FlowGraph) : Prop where
  mem_iff : ∀ n, n ∈ g.built ↔ g.contains n = true
  nodup : g.built.Nodup

/-- The empty graph lists the nodes of its table. -/
theorem keyed_empty : Keyed empty where
  mem_iff := by simp [empty, contains]
  nodup := List.nodup_nil

/-- An edge list that is put in makes its node a node of the graph. -/
theorem contains_insert {targets : List Nat} :
    (g.next.insert n targets).contains m = true ↔ n = m ∨ g.contains m = true := by
  rw [Std.TreeMap.contains_insert, Bool.or_eq_true, beq_iff_eq,
    Std.LawfulEqCmp.compare_eq_iff_eq, contains]

/-- Adding a node makes it a node of the graph. -/
theorem contains_addNode : (g.addNode n).contains m = true ↔ n = m ∨ g.contains m = true := by
  rw [addNode]
  split
  · rename_i hold
    exact ⟨.inr, fun h => h.elim (fun hnm => hnm ▸ hold) id⟩
  · exact contains_insert

/-- Adding a node keeps the list of nodes and the table together. -/
theorem Keyed.addNode (h : Keyed g) (n : Nat) : Keyed (g.addNode n) := by
  refine ⟨fun m => ?_, ?_⟩
  · rw [contains_addNode, FlowGraph.addNode]
    split
    · rename_i hold
      rw [h.mem_iff m]
      exact ⟨.inr, fun h => h.elim (fun hnm => hnm ▸ hold) id⟩
    · rw [List.mem_cons, h.mem_iff m, eq_comm]
  · rw [FlowGraph.addNode]
    split
    · exact h.nodup
    · rename_i hnew
      exact List.nodup_cons.mpr ⟨fun hmem => hnew ((h.mem_iff n).mp hmem), h.nodup⟩

/-- A new node has no successors. -/
theorem successors_addNode : (g.addNode n).successors m = g.successors m := by
  rw [addNode]
  split
  · rfl
  · rename_i hnew
    rw [successors, successors, Std.TreeMap.getElem?_insert]
    split
    · rename_i hcmp
      obtain rfl : n = m := Std.LawfulEqCmp.compare_eq_iff_eq.mp hcmp
      rw [Std.TreeMap.getElem?_eq_none hnew]
      rfl
    · rfl

/-- Adding an edge makes its ends nodes of the graph. -/
theorem contains_addEdge :
    (g.addEdge n m).contains k = true ↔ n = k ∨ m = k ∨ g.contains k = true := by
  rw [addEdge]
  split
  · rw [contains_addNode, contains_addNode]
  · rw [contains, contains_insert, contains_addNode, contains_addNode, or_self_left]

/-- Adding an edge keeps the list of nodes and the table together. -/
theorem Keyed.addEdge (h : Keyed g) (n m : Nat) : Keyed (g.addEdge n m) := by
  have hbuilt : (g.addEdge n m).built = ((g.addNode m).addNode n).built := by
    rw [FlowGraph.addEdge]
    split <;> rfl
  have hends := (h.addNode m).addNode n
  refine ⟨fun k => ?_, hbuilt ▸ hends.nodup⟩
  rw [hbuilt, hends.mem_iff, contains_addEdge, contains_addNode, contains_addNode]

/-- An edge adds its target to the successors of its source, if it is not there. -/
theorem successors_addEdge : (g.addEdge n m).successors k =
    if n = k ∧ m ∉ g.successors n then g.successors n ++ [m] else g.successors k := by
  rw [addEdge, successors_addNode, successors_addNode]
  by_cases hold : m ∈ g.successors n
  · rw [if_pos (by simpa using hold), if_neg (by simp [hold]), successors_addNode,
      successors_addNode]
  · rw [if_neg (by simpa using hold)]
    by_cases hnk : n = k
    · subst hnk
      rw [if_pos ⟨rfl, hold⟩, successors, Std.TreeMap.getElem?_insert_self]
      rfl
    · have hcmp : ¬compare n k = .eq := fun h => hnk (Std.LawfulEqCmp.compare_eq_iff_eq.mp h)
      rw [if_neg (by simp [hnk]), successors, Std.TreeMap.getElem?_insert, if_neg hcmp]
      exact successors_addNode.trans successors_addNode

/-! ## Built graphs -/

/-- The graph that further edits make of a graph. -/
theorem keyed_foldl (edits : List GraphEdit) (h : Keyed g) : Keyed (edits.foldl apply g) := by
  induction edits generalizing g with
  | nil => exact h
  | cons e edits ih =>
      refine ih ?_
      cases e with
      | node n => exact h.addNode n
      | edge source target => exact h.addEdge source target
      | entry n => exact ⟨h.mem_iff, h.nodup⟩

/-- A graph that is built lists the nodes of its table. -/
theorem keyed_build (edits : List GraphEdit) : Keyed (build edits) := keyed_foldl edits keyed_empty

/-- The nodes of a graph after some edits are those the edits bring in and the ones before. -/
theorem contains_foldl (edits : List GraphEdit) :
    (edits.foldl apply g).contains n = true ↔ (∃ e ∈ edits, n ∈ e.ends) ∨ g.contains n = true := by
  induction edits generalizing g with
  | nil => simp
  | cons e edits ih =>
      have happly : (g.apply e).contains n = true ↔ n ∈ e.ends ∨ g.contains n = true := by
        cases e with
        | node m => rw [apply, contains_addNode, GraphEdit.ends, List.mem_singleton, eq_comm]
        | edge source target =>
            rw [apply, contains_addEdge, GraphEdit.ends, List.mem_cons, List.mem_singleton, or_assoc,
              eq_comm, eq_comm (a := target)]
        | entry m => simp [apply, GraphEdit.ends, contains]
      simp only [List.foldl_cons, ih, happly, List.mem_cons, exists_eq_or_imp]
      rw [or_assoc, or_left_comm]

/-- **The nodes of a built graph** are those that the edits name. -/
theorem mem_nodes_build {edits : List GraphEdit} :
    n ∈ (build edits).nodes ↔ ∃ e ∈ edits, n ∈ e.ends := by
  rw [nodes, List.mem_reverse, (keyed_build edits).mem_iff, build, contains_foldl]
  simp [empty, contains]

/-- The successors of a node after some edits are those the edits bring in and the ones before. -/
theorem mem_successors_foldl (edits : List GraphEdit) :
    m ∈ (edits.foldl apply g).successors n ↔ .edge n m ∈ edits ∨ m ∈ g.successors n := by
  induction edits generalizing g with
  | nil => simp
  | cons e edits ih =>
      have happly : m ∈ (g.apply e).successors n ↔ .edge n m = e ∨ m ∈ g.successors n := by
        cases e with
        | node k => simp [apply, successors_addNode]
        | edge source target =>
            rw [apply, successors_addEdge, GraphEdit.edge.injEq]
            split
            · rename_i h
              obtain ⟨rfl, -⟩ := h
              simp [or_comm]
            · rename_i h
              refine ⟨.inr, ?_⟩
              rintro (⟨rfl, rfl⟩ | hold)
              · exact Classical.byContradiction fun hnew => h ⟨rfl, hnew⟩
              · exact hold
        | entry k => simp [apply, successors]
      rw [List.foldl_cons, ih, happly, List.mem_cons, or_assoc, or_left_comm]

/-- **The successors of a node** are the targets of the edges from it. -/
theorem mem_successors_build {edits : List GraphEdit} :
    m ∈ (build edits).successors n ↔ .edge n m ∈ edits := by
  rw [build, mem_successors_foldl]
  simp [empty, successors]

/-- The edits give no node a successor twice. -/
theorem nodup_successors_foldl (edits : List GraphEdit) (h : (g.successors n).Nodup) :
    ((edits.foldl apply g).successors n).Nodup := by
  induction edits generalizing g with
  | nil => exact h
  | cons e edits ih =>
      refine ih ?_
      cases e with
      | node k => rwa [apply, successors_addNode]
      | edge source target =>
          rw [apply, successors_addEdge]
          split
          · rename_i hnew
            obtain ⟨rfl, hnew⟩ := hnew
            refine List.nodup_append.mpr ⟨h, by simp, ?_⟩
            rintro k hk l hl rfl
            exact hnew (List.mem_singleton.mp hl ▸ hk)
          · exact h
      | entry k => exact h

/-- A successor counts once. -/
theorem nodup_successors_build (edits : List GraphEdit) (n : Nat) :
    ((build edits).successors n).Nodup :=
  nodup_successors_foldl edits (by simp [empty, successors])

/-- Adding a node keeps the entry. -/
theorem entry_addNode : (g.addNode n).entry = g.entry := by
  rw [addNode]
  split <;> rfl

/-- Adding an edge keeps the entry. -/
theorem entry_addEdge : (g.addEdge n m).entry = g.entry := by
  have hends : ((g.addNode m).addNode n).entry = g.entry := by rw [entry_addNode, entry_addNode]
  rw [addEdge]
  split <;> exact hends

/-- The entry stays if no edit sets it. -/
theorem entry_foldl {edits : List GraphEdit} (h : ∀ n, .entry n ∉ edits) :
    (edits.foldl apply g).entry = g.entry := by
  induction edits generalizing g with
  | nil => rfl
  | cons e edits ih =>
      rw [List.foldl_cons, ih fun n he => h n (List.mem_cons_of_mem _ he)]
      cases e with
      | node n => exact entry_addNode
      | edge source target => exact entry_addEdge
      | entry n => exact absurd List.mem_cons_self (h n)

end FlowGraph

end SharpMutants
