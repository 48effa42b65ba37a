import Std.Data.TreeSet.Lemmas
import Mathlib.Data.List.Perm.Lattice
import SharpMutants.Proofs.FlowGraph

/-!
# Depth-first search

A graph is closed if its edges and its entry do not lead out of it; built graphs are.
The search from the entry of a closed graph never meets its bound: `room` counts the
nodes that are still to be found, and it falls with every node that the search goes
into.  So the search finishes what it finds, each node once (`Extends`), and all nodes
stand once among those finished and those not found.
-/

namespace SharpMutants

namespace FlowGraph

/-- Nothing leads out of a graph. -/
structure Closed (g : FlowGraph) : Prop where
  nodup : g.nodes.Nodup
  source_mem : ∀ {n m : Nat}, m ∈ g.successors n → n ∈ g.nodes
  target_mem : ∀ {n m : Nat}, m ∈ g.successors n → m ∈ g.nodes
  entry_mem : ∀ {n : Nat}, g.entry = some n → n ∈ g.nodes

/-- **Built graphs are closed** if the entry is a node. -/
theorem closed_build {edits : List GraphEdit}
    (hentry : ∀ {n : Nat}, (build edits).entry = some n → n ∈ (build edits).nodes) :
    Closed (build edits) where
  nodup := List.nodup_reverse.mpr (keyed_build edits).nodup
  source_mem h := mem_nodes_build.mpr ⟨_, mem_successors_build.mp h, by simp [GraphEdit.ends]⟩
  target_mem h := mem_nodes_build.mpr ⟨_, mem_successors_build.mp h, by simp [GraphEdit.ends]⟩
  entry_mem := hentry

/-- One search is a continuation of another, within some nodes: what it has found besides, it has
finished. -/
structure Extends (nodes : List Nat) (s s' : Search) : Prop where
  mono : ∀ {n : Nat}, n ∈ s.found → n ∈ s'.found
  within : ∀ {n : Nat}, n ∈ s'.found → n ∈ s.found ∨ n ∈ nodes
  finished : ∃ added : List Nat, s'.finished = added ++ s.finished ∧ added.Nodup ∧
    ∀ n, n ∈ added ↔ n ∈ s'.found ∧ n ∉ s.found

/-- How many of some nodes are still to be found. -/
def room (nodes : List Nat) (s : Search) : Nat :=
  (nodes.filter fun n => !s.found.contains n).length

variable {nodes : List Nat} {next : Nat → List Nat} {bound : Nat} {s s' s'' : Search} {n m : Nat}

namespace Extends

theorem refl : Extends nodes s s :=
  ⟨id, .inl, [], rfl, List.nodup_nil, by simp⟩

theorem trans (h : Extends nodes s s') (h' : Extends nodes s' s'') : Extends nodes s s'' := by
  obtain ⟨added, hadded, hnodup, hmem⟩ := h.finished
  obtain ⟨added', hadded', hnodup', hmem'⟩ := h'.finished
  refine ⟨fun hn => h'.mono (h.mono hn), fun hn => (h'.within hn).elim h.within .inr,
    added' ++ added, ?_, ?_, fun n => ?_⟩
  · rw [hadded', hadded, List.append_assoc]
  · refine List.nodup_append.mpr ⟨hnodup', hnodup, ?_⟩
    rintro n hn _ hn' rfl
    exact ((hmem' n).mp hn).2 ((hmem n).mp hn').1
  · rw [List.mem_append, hmem', hmem]
    constructor
    · rintro (⟨hn, hnew⟩ | ⟨hn, hnew⟩)
      · exact ⟨hn, fun hold => hnew (h.mono hold)⟩
      · exact ⟨h'.mono hn, hnew⟩
    · rintro ⟨hn, hnew⟩
      by_cases hmid : n ∈ s'.found
      · exact .inr ⟨hmid, hnew⟩
      · exact .inl ⟨hn, hmid⟩

/-- A longer search leaves less to find. -/
theorem room_le (h : Extends nodes s s') : room nodes s' ≤ room nodes s := by
  refine (List.monotone_filter_right nodes fun n hn => ?_).length_le
  simp only [Bool.not_eq_true', ← Bool.not_eq_true, Std.TreeSet.contains_iff_mem] at hn ⊢
  exact fun hold => hn (h.mono hold)

end Extends

/-- The search that has just found a node. -/
def Search.find (s : Search) (n : Nat) : Search := { s with found := s.found.insert n }

/-- A search finds the node that it is given and loses none. -/
theorem mem_find : m ∈ (s.find n).found ↔ n = m ∨ m ∈ s.found := by
  rw [Search.find, Std.TreeSet.mem_insert, Std.LawfulEqCmp.compare_eq_iff_eq]

/-- There is less room when a new node is found. -/
theorem room_find_lt (hn : n ∈ nodes) (hnew : n ∉ s.found) :
    room nodes (s.find n) < room nodes s := by
  have hfilter : nodes.filter (fun m => !(s.find n).found.contains m) =
      (nodes.filter fun m => !s.found.contains m).filter fun m => n != m := by
    rw [List.filter_filter]
    refine List.filter_congr fun m _ => ?_
    rw [Bool.eq_iff_iff]
    simp only [Bool.and_eq_true, Bool.not_eq_true', ← Bool.not_eq_true, bne_iff_ne,
      Std.TreeSet.contains_iff_mem, mem_find, not_or]
  rw [room, hfilter]
  refine List.length_filter_lt_length_iff_exists.mpr ⟨n, List.mem_filter.mpr ⟨hn, ?_⟩, by simp⟩
  rwa [Bool.not_eq_true', ← Bool.not_eq_true, Std.TreeSet.contains_iff_mem]

/-- Searching from the nodes of a list, one after another, finishes what is found if searching from
each of them does. -/
theorem extends_foldl {visit : Search → Nat → Search} {ms : List Nat} (hms : ∀ m ∈ ms, m ∈ nodes)
    (hvisit : ∀ s m, m ∈ nodes → m ∉ s.found → room nodes s ≤ bound → Extends nodes s (visit s m))
    (hroom : room nodes s ≤ bound) :
    Extends nodes s (ms.foldl (fun s m => if s.found.contains m then s else visit s m) s) := by
  induction ms generalizing s with
  | nil => exact .refl
  | cons m ms ih =>
      obtain ⟨hm, hms⟩ := List.forall_mem_cons.mp hms
      rw [List.foldl_cons]
      by_cases hold : m ∈ s.found
      · rw [if_pos (Std.TreeSet.contains_iff_mem.mpr hold)]
        exact ih hms hroom
      · rw [if_neg (by rwa [Std.TreeSet.contains_iff_mem])]
        have hstep := hvisit s m hm hold hroom
        exact hstep.trans (ih hms (Nat.le_trans hstep.room_le hroom))

/-- **A search from a node finishes what it finds**, that node included, if its bound leaves room
for all nodes. -/
theorem extends_searchFrom (hnext : ∀ n ∈ nodes, ∀ m ∈ next n, m ∈ nodes) (hn : n ∈ nodes)
    (hnew : n ∉ s.found) (hbound : room nodes s ≤ bound) :
    Extends nodes s (searchFrom next bound (s.find n) n) := by
  induction bound generalizing s n with
  | zero =>
      have := room_find_lt hn hnew
      omega
  | succ bound ih =>
      have hroom : room nodes (s.find n) ≤ bound := by
        have := room_find_lt hn hnew
        omega
      have hbelow := extends_foldl (hnext n hn) (fun s m hm hnew hroom => ih hm hnew hroom) hroom
      obtain ⟨added, hadded, hnodup, hmem⟩ := hbelow.finished
      have hfound := hbelow.mono (mem_find.mpr (.inl rfl))
      refine ⟨fun hm => hbelow.mono (mem_find.mpr (.inr hm)), fun {m} hm => ?_, n :: added,
        congrArg (n :: ·) hadded, ?_, fun m => ?_⟩
      · rcases hbelow.within hm with hm | hm
        · exact (mem_find.mp hm).elim (fun h => .inr (h ▸ hn)) .inl
        · exact .inr hm
      · exact List.nodup_cons.mpr ⟨fun h => ((hmem n).mp h).2 (mem_find.mpr (.inl rfl)), hnodup⟩
      · rw [List.mem_cons, hmem, mem_find, not_or]
        constructor
        · rintro (rfl | ⟨hm, -, hold⟩)
          · exact ⟨hfound, hnew⟩
          · exact ⟨hm, hold⟩
        · rintro ⟨hm, hold⟩
          by_cases hnm : n = m
          · exact .inl hnm.symm
          · exact .inr ⟨hm, hnm, hold⟩

variable {g : FlowGraph}

/-- The search of a closed graph finishes what it finds, each node once. -/
theorem Closed.extends_search (h : Closed g) : Extends g.nodes ⟨∅, []⟩ g.search := by
  rw [search]
  cases hentry : g.entry with
  | none => exact .refl
  | some n =>
      refine extends_searchFrom (fun n _ m hm => h.target_mem hm) (h.entry_mem hentry)
        Std.TreeSet.not_mem_emptyc ?_
      have hroom := List.length_filter_le (fun n => !(∅ : Std.TreeSet Nat).contains n) g.nodes
      rw [nodes, List.length_reverse] at hroom
      exact Nat.le_succ_of_le hroom

/-- **The nodes finished and those not found** are all nodes, each once. -/
theorem Closed.perm_finished (h : Closed g) :
    (g.search.finished ++ g.nodes.filter fun n => !g.search.found.contains n).Perm g.nodes := by
  obtain ⟨added, hadded, hnodup, hmem⟩ := h.extends_search.finished
  rw [List.append_nil] at hadded
  have hmem : ∀ n, n ∈ g.search.finished ↔ n ∈ g.search.found := by
    intro n
    rw [hadded, hmem]
    exact and_iff_left Std.TreeSet.not_mem_emptyc
  have hwithin : ∀ n, n ∈ g.search.found → n ∈ g.nodes := fun n hn =>
    (h.extends_search.within hn).resolve_left Std.TreeSet.not_mem_emptyc
  have hnew : ∀ n, n ∈ (g.nodes.filter fun n => !g.search.found.contains n) ↔
      n ∈ g.nodes ∧ n ∉ g.search.found := by
    intro n
    rw [List.mem_filter, Bool.not_eq_true', ← Bool.not_eq_true, Std.TreeSet.contains_iff_mem]
  refine (List.perm_ext_iff_of_nodup (List.nodup_append.mpr ⟨hadded ▸ hnodup, h.nodup.filter _, ?_⟩)
    h.nodup).mpr fun n => ?_
  · rintro n hn _ hn' rfl
    exact ((hnew n).mp hn').2 ((hmem n).mp hn)
  · rw [List.mem_append, hmem, hnew]
    constructor
    · rintro (hn | hn)
      · exact hwithin n hn
      · exact hn.1
    · intro hn
      by_cases hfound : n ∈ g.search.found
      · exact .inl hfound
      · exact .inr ⟨hn, hfound⟩

end FlowGraph

end SharpMutants
