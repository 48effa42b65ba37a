import Mathlib.Logic.Relation
import SharpMutants.Proofs.Dataflow.Search

/-!
# What a depth-first search finds, and in which order

While a search is at a node, the nodes from there back to the root of the search lie on a
path without repetitions (`Trail`); they are found and not finished, and all else that is
found is finished (`Exploring`).  A node is finished when all its successors are found: a
successor that is not finished by then is on the trail.

So at the end just the nodes to which a path leads are finished (`Closed.mem_postorder_iff`),
and a successor of a node comes behind it in reverse postorder unless a trail to the node
passes through it (`Closed.before_or_trail`).
-/

namespace SharpMutants

/-- In a list without repetitions, what comes first has the lower index. -/
theorem idxOf_lt_of_sublist {l : List Nat} {n m : Nat} (h : [n, m].Sublist l) (hl : l.Nodup) :
    l.idxOf n < l.idxOf m := by
  obtain ⟨front, back, rfl, hn, hm⟩ := List.cons_sublist_iff.mp h
  have hm' : m ∉ front := fun hfront =>
    (List.nodup_append.mp hl).2.2 m hfront m (List.singleton_sublist.mp hm) rfl
  rw [List.idxOf_append_of_mem hn, List.idxOf_append_of_notMem hm']
  have := List.idxOf_lt_length_of_mem hn
  omega

namespace FlowGraph

/-- A path leads from one node to another. -/
def Reaches (g : FlowGraph) : Nat → Nat → Prop :=
  Relation.ReflTransGen fun n m => m ∈ g.successors n

/-- A path from a root that meets no node twice, the last node in front. -/
structure Trail (next : Nat → List Nat) (root : Nat) (p : List Nat) : Prop where
  chain : p.IsChain fun n m => n ∈ next m
  nodup : p.Nodup
  root_eq : ∀ n ∈ p.getLast?, n = root

/-- The state of a search from a root that has come along a path to a node. -/
structure Exploring (next : Nat → List Nat) (root : Nat) (p : List Nat) (s : Search) : Prop where
  found_iff : ∀ n, n ∈ s.found ↔ n ∈ s.finished ∨ n ∈ p
  reached : ∀ n ∈ s.found, Relation.ReflTransGen (fun n m => m ∈ next n) root n
  closed : ∀ n ∈ s.finished, ∀ m ∈ next n, m ∈ s.found
  ordered : ∀ n ∈ s.finished, ∀ m ∈ next n,
    [n, m].Sublist s.finished ∨ ∃ q, Trail next root (n :: q) ∧ m ∈ n :: q

variable {next : Nat → List Nat} {root n m bound : Nat} {p nodes : List Nat} {s : Search}

namespace Trail

/-- The root alone is a path from it. -/
theorem singleton : Trail next root [root] :=
  ⟨.singleton root, List.nodup_singleton root, by simp⟩

/-- An edge to a new node makes a path longer. -/
theorem cons (h : Trail next root (n :: p)) (hm : m ∈ next n) (hnew : m ∉ n :: p) :
    Trail next root (m :: n :: p) where
  chain := List.isChain_cons_cons.mpr ⟨hm, h.chain⟩
  nodup := List.nodup_cons.mpr ⟨hnew, h.nodup⟩
  root_eq k hk := by
    rw [List.getLast?_cons_cons] at hk
    exact h.root_eq k hk

/-- A path without its last node is a path. -/
theorem tail (h : Trail next root (n :: m :: p)) : Trail next root (m :: p) where
  chain := (List.isChain_cons_cons.mp h.chain).2
  nodup := (List.nodup_cons.mp h.nodup).2
  root_eq k hk := by
    apply h.root_eq k
    rwa [List.getLast?_cons_cons]

/-- A path with one node is the root. -/
theorem eq_root (h : Trail next root [n]) : n = root := h.root_eq n rfl

/-- A trail leads from its root to its last node. -/
theorem reaches (h : Trail next root (n :: p)) :
    Relation.ReflTransGen (fun n m => m ∈ next n) root n := by
  induction p generalizing n with
  | nil => exact h.eq_root ▸ .refl
  | cons m p ih => exact (ih h.tail).tail (List.isChain_cons_cons.mp h.chain).1

end Trail

namespace Exploring

/-- Before a search has found anything, its path is empty. -/
theorem start : Exploring next root [] ⟨∅, []⟩ where
  found_iff n := by simp
  reached n hn := absurd hn Std.TreeSet.not_mem_emptyc
  closed n hn := absurd hn List.not_mem_nil
  ordered n hn := absurd hn List.not_mem_nil

/-- The search goes on to a node that it has not found before. -/
theorem find (h : Exploring next root p s) (htrail : Trail next root (n :: p)) :
    Exploring next root (n :: p) (s.find n) where
  found_iff m := by
    rw [mem_find, h.found_iff, List.mem_cons, or_left_comm, eq_comm]
    rfl
  reached m hm := by
    rcases mem_find.mp hm with rfl | hm
    · exact htrail.reaches
    · exact h.reached m hm
  closed k hk m hm := mem_find.mpr (.inr (h.closed k hk m hm))
  ordered := h.ordered

/-- The search goes back from a node all of whose successors are found. -/
theorem finish (h : Exploring next root (n :: p) s) (htrail : Trail next root (n :: p))
    (hnext : ∀ m ∈ next n, m ∈ s.found) :
    Exploring next root p { s with finished := n :: s.finished } where
  found_iff m := by
    rw [h.found_iff, List.mem_cons, List.mem_cons, or_left_comm, or_assoc]
  reached := h.reached
  closed k hk m hm := by
    rcases List.mem_cons.mp hk with rfl | hk
    · exact hnext m hm
    · exact h.closed k hk m hm
  ordered k hk m hm := by
    rcases List.mem_cons.mp hk with rfl | hk
    · rcases (h.found_iff m).mp (hnext m hm) with hfinished | htrailed
      · exact .inl ((List.singleton_sublist.mpr hfinished).cons_cons k)
      · exact .inr ⟨p, htrail, htrailed⟩
    · exact (h.ordered k hk m hm).imp_left (.cons n)

end Exploring

/-- Searching from the successors of a node, one after another, finds them all and comes back to
the node, if searching from each of them does. -/
theorem exploring_foldl {visit : Search → Nat → Search} {ms : List Nat}
    (hms : ∀ m ∈ ms, m ∈ nodes ∧ m ∈ next n)
    (hextends : ∀ s m, m ∈ nodes → m ∉ s.found → room nodes s ≤ bound →
      Extends nodes s (visit s m))
    (hvisit : ∀ s m, m ∈ nodes → m ∈ next n → m ∉ s.found → room nodes s ≤ bound →
      Exploring next root p s → Exploring next root p (visit s m) ∧ m ∈ (visit s m).found)
    (hroom : room nodes s ≤ bound) (h : Exploring next root p s) :
    Exploring next root p
        (ms.foldl (fun s m => if s.found.contains m then s else visit s m) s) ∧
      ∀ m ∈ ms, m ∈
        (ms.foldl (fun s m => if s.found.contains m then s else visit s m) s).found := by
  induction ms generalizing s with
  | nil => exact ⟨h, nofun⟩
  | cons m ms ih =>
      obtain ⟨⟨hm, hedge⟩, hms⟩ := List.forall_mem_cons.mp hms
      have hlater : ∀ t : Search, room nodes t ≤ bound → Extends nodes t
          (ms.foldl (fun s m => if s.found.contains m then s else visit s m) t) :=
        fun t ht => extends_foldl (fun m hm => (hms m hm).1) hextends ht
      rw [List.foldl_cons, List.forall_mem_cons]
      by_cases hold : m ∈ s.found
      · rw [if_pos (Std.TreeSet.contains_iff_mem.mpr hold)]
        obtain ⟨hafter, hfound⟩ := ih hms hroom h
        exact ⟨hafter, (hlater s hroom).mono hold, hfound⟩
      · rw [if_neg (by rwa [Std.TreeSet.contains_iff_mem])]
        have hroom' := Nat.le_trans (hextends s m hm hold hroom).room_le hroom
        obtain ⟨hhere, hnew⟩ := hvisit s m hm hedge hold hroom h
        obtain ⟨hafter, hfound⟩ := ih hms hroom' hhere
        exact ⟨hafter, (hlater _ hroom').mono hnew, hfound⟩

/-- **A search from a node** comes back to where it came from, with the node finished. -/
theorem exploring_searchFrom (hnext : ∀ n ∈ nodes, ∀ m ∈ next n, m ∈ nodes) (hn : n ∈ nodes)
    (hnew : n ∉ s.found) (hbound : room nodes s ≤ bound) (htrail : Trail next root (n :: p))
    (h : Exploring next root p s) :
    Exploring next root p (searchFrom next bound (s.find n) n) ∧
      n ∈ (searchFrom next bound (s.find n) n).found := by
  induction bound generalizing s n p with
  | zero =>
      have := room_find_lt hn hnew
      omega
  | succ bound ih =>
      have hroom : room nodes (s.find n) ≤ bound := by
        have := room_find_lt hn hnew
        omega
      obtain ⟨hbelow, hfound⟩ := exploring_foldl (fun m hm => ⟨hnext n hn m hm, hm⟩)
        (fun s m hm hnew hroom => extends_searchFrom hnext hm hnew hroom)
        (fun s m hm hedge hnew hroom h => ih hm hnew hroom
          (htrail.cons hedge fun hmem => hnew ((h.found_iff m).mpr (.inr hmem))) h)
        hroom (h.find htrail)
      exact ⟨hbelow.finish htrail hfound, (hbelow.found_iff n).mpr (.inr List.mem_cons_self)⟩

section Searched

variable {g : FlowGraph} {entry : Nat}

/-- The search of a closed graph ends at the entry, from where it started. -/
theorem Closed.exploring_search (h : Closed g) (hentry : g.entry = some entry) :
    Exploring g.successors entry [] g.search ∧ entry ∈ g.search.found := by
  have hroom : room g.nodes ⟨∅, []⟩ ≤ g.size + 1 := by
    have hle := List.length_filter_le (fun n => !(∅ : Std.TreeSet Nat).contains n) g.nodes
    rw [nodes, List.length_reverse] at hle
    exact Nat.le_succ_of_le hle
  have hstart : Exploring g.successors entry [] ⟨∅, []⟩ := Exploring.start
  have hsearch := exploring_searchFrom (fun n _ m hm => h.target_mem hm) (h.entry_mem hentry)
    Std.TreeSet.not_mem_emptyc hroom Trail.singleton hstart
  rw [search, hentry]
  exact hsearch

/-- The postorder has the nodes that the search has finished. -/
theorem mem_postorder : n ∈ g.postorder ↔ n ∈ g.search.finished := by
  rw [postorder, List.mem_reverse, reversePostorder]

/-- **The postorder lists what can be reached** from the entry. -/
theorem Closed.mem_postorder_iff (h : Closed g) :
    n ∈ g.postorder ↔ ∃ entry, g.entry = some entry ∧ g.Reaches entry n := by
  rw [mem_postorder]
  cases hentry : g.entry with
  | none => simp [search, hentry]
  | some entry =>
      obtain ⟨hsearch, hfound⟩ := h.exploring_search hentry
      have hfinished : ∀ n, n ∈ g.search.found ↔ n ∈ g.search.finished := by
        intro n
        rw [hsearch.found_iff, or_iff_left List.not_mem_nil]
      simp only [Option.some.injEq, exists_eq_left']
      rw [← hfinished]
      constructor
      · exact hsearch.reached n
      · intro hreaches
        induction hreaches with
        | refl => exact hfound
        | tail _ hedge ih => exact hsearch.closed _ ((hfinished _).mp ih) _ hedge

/-- **A successor comes later in reverse postorder**, or a trail passes through it before it gets
to the node. -/
theorem Closed.before_or_trail (h : Closed g) (hn : n ∈ g.postorder) (hm : m ∈ g.successors n) :
    [n, m].Sublist g.reversePostorder ∨ ∃ entry q, g.entry = some entry ∧
      Trail g.successors entry (n :: q) ∧ m ∈ n :: q := by
  rw [mem_postorder] at hn
  cases hentry : g.entry with
  | none => simp [search, hentry] at hn
  | some entry =>
      rcases (h.exploring_search hentry).1.ordered n hn m hm with hbefore | ⟨q, htrail, hmem⟩
      · exact .inl hbefore
      · exact .inr ⟨entry, q, rfl, htrail, hmem⟩

/-- No node is listed twice. -/
theorem Closed.nodup_reversePostorder (h : Closed g) : g.reversePostorder.Nodup :=
  (List.nodup_append.mp (h.perm_finished.nodup_iff.mpr h.nodup)).1

end Searched

end FlowGraph

end SharpMutants
