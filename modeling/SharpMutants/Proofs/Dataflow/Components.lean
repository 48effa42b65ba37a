import SharpMutants.Analysis.Loops
import SharpMutants.Proofs.Dataflow.DepthFirst
import SharpMutants.Proofs.Dataflow.Fixpoint

/-!
# Components and loops

A search from a node that does not count as found finds what a path of at least one edge leads to
(`mem_found_searchFrom`).  So a ring holds the nodes that are on a cycle with its head among the
nodes from the head on (`mem_ring_iff`).

Every class of nodes that are on one cycle has a least node, its base.  The heads are tried in
ascending order, so a base is tried before the other heads of its class, and its ring is the whole
class; therefore the loops are as many as the bases (`Closed.exists_bases`).  A partition of the
nodes into strongly connected components has as many components with a cycle
(`Components.countP_isCyclic`).
-/

namespace SharpMutants

namespace FlowGraph

/-! ## Searching from the successors of a node -/

/-- One search is a continuation of another that has found some roots and what edges lead to from
what it has found besides. -/
structure Spreads (next : Nat → List Nat) (roots : List Nat) (s s' : Search) : Prop where
  mono : ∀ {n : Nat}, n ∈ s.found → n ∈ s'.found
  starts : ∀ n ∈ roots, n ∈ s'.found
  closed : ∀ n ∈ s'.found, n ∉ s.found → ∀ m ∈ next n, m ∈ s'.found
  reached : ∀ n ∈ s'.found, n ∉ s.found →
    ∃ root ∈ roots, Relation.ReflTransGen (fun n m => m ∈ next n) root n

variable {nodes roots : List Nat} {next : Nat → List Nat} {bound : Nat} {s s' : Search} {n m : Nat}

/-- Searches from several roots one after another spread from all of them. -/
theorem spreads_foldl {visit : Search → Nat → Search} (hroots : ∀ m ∈ roots, m ∈ nodes)
    (hextends : ∀ s m, m ∈ nodes → m ∉ s.found → room nodes s ≤ bound →
      Extends nodes s (visit s m))
    (hvisit : ∀ s m, m ∈ nodes → m ∉ s.found → room nodes s ≤ bound →
      Spreads next [m] s (visit s m))
    (hroom : room nodes s ≤ bound) :
    Spreads next roots s
      (roots.foldl (fun s m => if s.found.contains m then s else visit s m) s) := by
  induction roots generalizing s with
  | nil => exact ⟨id, nofun, fun n hn hnew => absurd hn hnew, fun n hn hnew => absurd hn hnew⟩
  | cons m roots ih =>
      obtain ⟨hm, hroots⟩ := List.forall_mem_cons.mp hroots
      rw [List.foldl_cons]
      by_cases hold : m ∈ s.found
      · rw [if_pos (Std.TreeSet.contains_iff_mem.mpr hold)]
        obtain ⟨hmono, hfound, hclosed, hreached⟩ := ih hroots hroom
        refine ⟨hmono, List.forall_mem_cons.mpr ⟨hmono hold, hfound⟩, hclosed, fun n hn hnew => ?_⟩
        obtain ⟨root, hroot, hpath⟩ := hreached n hn hnew
        exact ⟨root, List.mem_cons_of_mem m hroot, hpath⟩
      · rw [if_neg (by rwa [Std.TreeSet.contains_iff_mem])]
        have hstep := hvisit s m hm hold hroom
        have hrest := ih (s := visit s m) hroots
          (Nat.le_trans (hextends s m hm hold hroom).room_le hroom)
        -- What is found is found at the first root, or after that.
        refine ⟨fun hn => hrest.mono (hstep.mono hn), ?_, fun n hn hnew k hk => ?_,
          fun n hn hnew => ?_⟩
        · exact List.forall_mem_cons.mpr
            ⟨hrest.mono (hstep.starts m List.mem_cons_self), hrest.starts⟩
        · by_cases hfirst : n ∈ (visit s m).found
          · exact hrest.mono (hstep.closed n hfirst hnew k hk)
          · exact hrest.closed n hn hfirst k hk
        · by_cases hfirst : n ∈ (visit s m).found
          · obtain ⟨root, hroot, hpath⟩ := hstep.reached n hfirst hnew
            obtain rfl := List.mem_singleton.mp hroot
            exact ⟨root, List.mem_cons_self, hpath⟩
          · obtain ⟨root, hroot, hpath⟩ := hrest.reached n hn hfirst
            exact ⟨root, List.mem_cons_of_mem m hroot, hpath⟩

/-- **A search from a node** finds what edges lead to from what it finds. -/
theorem spreads_searchFrom (hnext : ∀ n ∈ nodes, ∀ m ∈ next n, m ∈ nodes) (hn : n ∈ nodes)
    (hnew : n ∉ s.found) (hbound : room nodes s ≤ bound) :
    Spreads next [n] s (searchFrom next bound (s.find n) n) := by
  induction bound generalizing s n with
  | zero =>
      have := room_find_lt hn hnew
      omega
  | succ bound ih =>
      have hroom : room nodes (s.find n) ≤ bound := by
        have := room_find_lt hn hnew
        omega
      have hbelow := spreads_foldl (hnext n hn)
        (fun s m hm hnew hroom => extends_searchFrom hnext hm hnew hroom)
        (fun s m hm hnew hroom => ih hm hnew hroom) hroom
      have hhere := hbelow.mono (mem_find.mpr (.inl rfl))
      refine ⟨fun hm => hbelow.mono (mem_find.mpr (.inr hm)), ?_, fun k hk hold m hm => ?_,
        fun k hk hold => ⟨n, List.mem_singleton_self n, ?_⟩⟩
      · exact List.forall_mem_singleton.mpr hhere
      · by_cases hkn : n = k
        · exact hbelow.starts m (hkn ▸ hm)
        · exact hbelow.closed k hk (fun h => (mem_find.mp h).elim hkn hold) m hm
      · by_cases hkn : n = k
        · exact hkn ▸ .refl
        · obtain ⟨m, hm, hpath⟩ := hbelow.reached k hk fun h => (mem_find.mp h).elim hkn hold
          exact .head hm hpath

/-- **A search that starts behind a node** finds what a path of at least one edge leads to. -/
theorem mem_found_searchFrom (hnext : ∀ n ∈ nodes, ∀ m ∈ next n, m ∈ nodes) (hn : n ∈ nodes)
    (hbound : nodes.length ≤ bound) : m ∈ (searchFrom next (bound + 1) ⟨∅, []⟩ n).found ↔
      Relation.TransGen (fun n m => m ∈ next n) n m := by
  have hroom : room nodes ⟨∅, []⟩ ≤ bound := Nat.le_trans (List.length_filter_le _ _) hbound
  have hbelow := spreads_foldl (hnext n hn)
    (fun s m hm hnew hroom => extends_searchFrom hnext hm hnew hroom)
    (fun s m hm hnew hroom => spreads_searchFrom hnext hm hnew hroom) hroom
  have hnone : ∀ k, k ∉ (⟨∅, []⟩ : Search).found := fun k => Std.TreeSet.not_mem_emptyc
  constructor
  · intro hm
    obtain ⟨root, hroot, hpath⟩ := hbelow.reached m hm (hnone m)
    exact .head' hroot hpath
  · intro hpath
    induction hpath with
    | single hedge => exact hbelow.starts _ hedge
    | tail _ hedge ih => exact hbelow.closed _ ih (hnone _) _ hedge

/-! ## Rings -/

variable {g : FlowGraph} {head b : Nat}

/-- A path of at least one edge leads from one node to another. -/
def Passes (g : FlowGraph) : Nat → Nat → Prop :=
  Relation.TransGen fun n m => m ∈ g.successors n

/-- An edge leads from one node to another, both with numbers from that of a head on. -/
def From (g : FlowGraph) (head n m : Nat) : Prop :=
  m ∈ g.successors n ∧ head ≤ n ∧ head ≤ m

/-- A path of edges from a head on stays from the head on. -/
theorem le_of_transGen_from (h : Relation.TransGen (g.From head) n m) : head ≤ n ∧ head ≤ m := by
  induction h with
  | single hedge => exact hedge.2
  | tail _ hedge ih => exact ⟨ih.1, hedge.2.2⟩

/-- The heads of a graph are the nodes that an edge leads back to. -/
theorem Closed.mem_heads (h : g.Closed) : m ∈ g.heads ↔ ∃ n, m ∈ g.successors n ∧ m ≤ n := by
  have hheads : g.heads =
      g.edges.foldl (fun found e => if e.2 ≤ e.1 then found.insert e.2 else found) ∅ := rfl
  have hfold : ∀ (es : List (Nat × Nat)) (found : Std.TreeSet Nat),
      m ∈ es.foldl (fun found e => if e.2 ≤ e.1 then found.insert e.2 else found) found ↔
        m ∈ found ∨ ∃ n, (n, m) ∈ es ∧ m ≤ n := by
    intro es
    induction es with
    | nil => simp
    | cons e es ih =>
        intro found
        obtain ⟨n, k⟩ := e
        rw [List.foldl_cons, ih]
        dsimp only
        by_cases hle : k ≤ n
        · rw [if_pos hle, Std.TreeSet.mem_insert, Std.LawfulEqCmp.compare_eq_iff_eq]
          grind
        · rw [if_neg hle]
          grind
  rw [hheads, hfold, or_iff_right Std.TreeSet.not_mem_emptyc]
  refine exists_congr fun n => and_congr_left fun _ => ?_
  rw [edges, List.mem_flatMap]
  constructor
  · rintro ⟨k, -, hk⟩
    obtain ⟨l, hl, heq⟩ := List.mem_map.mp hk
    obtain ⟨rfl, rfl⟩ := Prod.mk.inj heq
    exact hl
  · intro hm
    exact ⟨n, h.source_mem hm, List.mem_map_of_mem hm⟩

/-- The nodes found from a head along the edges turned round. -/
theorem Closed.mem_leadingTo (h : g.Closed) (hhead : head ∈ g.nodes) :
    n ∈ leadingTo g.transposed head ↔ Relation.TransGen (g.From head) n head := by
  have hedge : ∀ {k l : Nat}, l ∈ (g.transposed.successors k).filter (head ≤ ·) ↔
      k ∈ g.successors l ∧ head ≤ l := by
    intro k l
    rw [List.mem_filter, successors_transposed, FlowProblem.mem_predecessors h, decide_eq_true_iff]
  have hsize : g.nodes.length ≤ g.transposed.size := Nat.le_of_eq List.length_reverse
  have hnext : ∀ k ∈ g.nodes, ∀ l ∈ (g.transposed.successors k).filter (head ≤ ·), l ∈ g.nodes :=
    fun k _ l hl => h.source_mem (hedge.mp hl).1
  rw [leadingTo, mem_found_searchFrom hnext hhead hsize]
  constructor
  · intro hpath
    have hboth : Relation.TransGen (g.From head) n head ∧ head ≤ n := by
      induction hpath with
      | single hl =>
          obtain ⟨hl, hle⟩ := hedge.mp hl
          exact ⟨.single ⟨hl, hle, Nat.le_refl head⟩, hle⟩
      | tail _ hl ih =>
          obtain ⟨hl, hle⟩ := hedge.mp hl
          exact ⟨.head ⟨hl, hle, ih.2⟩ ih.1, hle⟩
    exact hboth.1
  · intro hpath
    rw [← Relation.transGen_swap] at hpath
    exact Relation.TransGen.mono (fun k l hl => hedge.mpr ⟨hl.1, hl.2.1⟩) _ _ hpath

/-- **A ring** holds the nodes that are on a cycle with its head among the nodes from the head
on. -/
theorem Closed.mem_ring_iff (h : g.Closed) (hhead : head ∈ g.nodes) :
    m ∈ g.ring g.transposed head ↔
      Relation.TransGen (g.From head) head m ∧ Relation.TransGen (g.From head) m head := by
  have hedge : ∀ {k l : Nat},
      l ∈ (g.successors k).filter (leadingTo g.transposed head).contains ↔
        l ∈ g.successors k ∧ Relation.TransGen (g.From head) l head := by
    intro k l
    rw [List.mem_filter, Std.TreeSet.contains_iff_mem, h.mem_leadingTo hhead]
  have hsize : g.nodes.length ≤ g.size := Nat.le_of_eq List.length_reverse
  have hnext : ∀ k ∈ g.nodes,
      ∀ l ∈ (g.successors k).filter (leadingTo g.transposed head).contains, l ∈ g.nodes :=
    fun k _ l hl => h.target_mem (hedge.mp hl).1
  rw [ring, mem_found_searchFrom hnext hhead hsize]
  constructor
  · intro hpath
    induction hpath with
    | single hl =>
        obtain ⟨hl, hback⟩ := hedge.mp hl
        exact ⟨.single ⟨hl, Nat.le_refl head, (le_of_transGen_from hback).1⟩, hback⟩
    | tail _ hl ih =>
        obtain ⟨hl, hback⟩ := hedge.mp hl
        have hle := (le_of_transGen_from ih.1).2
        exact ⟨.tail ih.1 ⟨hl, hle, (le_of_transGen_from hback).1⟩, hback⟩
  · rintro ⟨hpath, hback⟩
    induction hpath with
    | single hl => exact .single (hedge.mpr ⟨hl.1, hback⟩)
    | tail _ hl ih => exact .tail (ih (.head hl hback)) (hedge.mpr ⟨hl.1, hback⟩)

/-! ## Bases -/

/-- A node is on a cycle, and no node that is on one with it has a lower number. -/
structure Base (g : FlowGraph) (n : Nat) : Prop where
  cyclic : g.Passes n n
  least : ∀ m, g.Passes n m → g.Passes m n → n ≤ m

/-- A path of edges from a head on is a path of at least one edge. -/
theorem passes_of_from (h : Relation.TransGen (g.From head) n m) : g.Passes n m :=
  Relation.TransGen.mono (fun _ _ hedge => hedge.1) _ _ h

/-- A path begins at a node of the graph. -/
theorem Passes.source_mem (hpath : g.Passes n m) (h : g.Closed) : n ∈ g.nodes := by
  obtain ⟨k, hedge, -⟩ := Relation.TransGen.head'_iff.mp hpath
  exact h.source_mem hedge

/-- A base is a node of the graph. -/
theorem Base.mem_nodes (hb : g.Base b) (h : g.Closed) : b ∈ g.nodes := hb.cyclic.source_mem h

/-- The ring of a base holds all the nodes that are on a cycle with it. -/
theorem Base.mem_ring_iff (hb : g.Base b) (h : g.Closed) :
    m ∈ g.ring g.transposed b ↔ g.Passes b m ∧ g.Passes m b := by
  rw [h.mem_ring_iff (hb.mem_nodes h)]
  constructor
  · exact fun ⟨hto, hback⟩ => ⟨passes_of_from hto, passes_of_from hback⟩
  · rintro ⟨hto, hback⟩
    constructor
    · induction hto with
      | single hedge => exact .single ⟨hedge, Nat.le_refl b, hb.least _ (.single hedge) hback⟩
      | @tail k l hk hedge ih =>
          have hback' : g.Passes k b := .head hedge hback
          exact .tail (ih hback') ⟨hedge, hb.least k hk hback', hb.least l (hk.tail hedge) hback⟩
    · induction hback using Relation.TransGen.head_induction_on with
      | single hedge => exact .single ⟨hedge, hb.least _ hto (.single hedge), Nat.le_refl b⟩
      | @head k l hedge hl ih =>
          have hto' : g.Passes b l := hto.tail hedge
          exact .head ⟨hedge, hb.least k hto (.head hedge hl), hb.least l hto' hl⟩ (ih hto')

/-- A base is a head. -/
theorem Base.mem_heads (hb : g.Base b) (h : g.Closed) : b ∈ g.heads := by
  obtain ⟨k, hk, hedge⟩ := Relation.TransGen.tail'_iff.mp hb.cyclic
  refine h.mem_heads.mpr ⟨k, hedge, ?_⟩
  rcases Relation.reflTransGen_iff_eq_or_transGen.mp hk with rfl | hk
  · exact Nat.le_refl _
  · exact hb.least k hk (.single hedge)

/-- Every node on a cycle is on one with a base, which does not come after it. -/
theorem exists_base (h : g.Passes n n) :
    ∃ b, g.Base b ∧ g.Passes b n ∧ g.Passes n b ∧ b ≤ n := by
  induction n using Nat.strongRecOn with
  | ind n ih =>
      by_cases hbase : g.Base n
      · exact ⟨n, hbase, h, h, Nat.le_refl n⟩
      · have hlower : ∃ m, g.Passes n m ∧ g.Passes m n ∧ m < n := by
          by_contra hnone
          refine hbase ⟨h, fun m hto hback => ?_⟩
          by_contra hlt
          exact hnone ⟨m, hto, hback, by omega⟩
        obtain ⟨m, hto, hback, hlt⟩ := hlower
        obtain ⟨b, hb, hbm, hmb, hle⟩ := ih m hlt (hback.trans hto)
        exact ⟨b, hb, hbm.trans hback, hto.trans hmb, by omega⟩

/-- The loops are the rings of the bases among some nodes. -/
def RingsOf (g : FlowGraph) (hs : List Nat) (loops : List (Std.TreeSet Nat)) : Prop :=
  ∃ bs : List Nat, loops = bs.map (g.ring g.transposed) ∧ bs.Nodup ∧
    ∀ b, b ∈ bs ↔ b ∈ hs ∧ g.Base b

/-- A head is in one of the rings if it is on a cycle with one of the bases. -/
theorem Closed.any_ring_iff (h : g.Closed) {bs : List Nat} (hbs : ∀ b ∈ bs, g.Base b) :
    ((bs.map (g.ring g.transposed)).any fun loop => loop.contains head) = true ↔
      ∃ b ∈ bs, g.Passes b head ∧ g.Passes head b := by
  simp only [List.any_map, List.any_eq_true, Function.comp_apply, Std.TreeSet.contains_iff_mem]
  exact exists_congr fun b => and_congr_right fun hb => (hbs b hb).mem_ring_iff h

/-- A base that was not tried before adds its ring. -/
theorem Base.addLoop_eq (hhead : g.Base head) (h : g.Closed) {bs : List Nat}
    (hbs : ∀ b ∈ bs, g.Base b) (hnew : head ∉ bs) :
    g.addLoop g.transposed (bs.map (g.ring g.transposed)) head =
      (head :: bs).map (g.ring g.transposed) := by
  -- A base with which the head is on a cycle would be the head.
  have hfresh : ¬∃ b ∈ bs, g.Passes b head ∧ g.Passes head b := by
    rintro ⟨b, hb, hto, hback⟩
    have heq : b = head :=
      Nat.le_antisymm ((hbs b hb).least head hto hback) (hhead.least b hback hto)
    exact hnew (heq ▸ hb)
  have hring : (g.ring g.transposed head).contains head = true := by
    rw [Std.TreeSet.contains_iff_mem, hhead.mem_ring_iff h]
    exact ⟨hhead.cyclic, hhead.cyclic⟩
  rw [addLoop, if_neg (mt (h.any_ring_iff hbs).mp hfresh)]
  dsimp only
  rw [if_pos hring, List.map_cons]

/-- A head that is no base adds nothing, when the bases below it have been tried. -/
theorem Closed.addLoop_eq (h : g.Closed) {bs : List Nat} (hbs : ∀ b ∈ bs, g.Base b)
    (hlower : ∀ b, g.Base b → b < head → b ∈ bs) (hhead : head ∈ g.nodes)
    (hbase : ¬g.Base head) : g.addLoop g.transposed (bs.map (g.ring g.transposed)) head =
      bs.map (g.ring g.transposed) := by
  rw [addLoop]
  by_cases hcyclic : g.Passes head head
  · obtain ⟨b, hb, hto, hback, hle⟩ := exists_base hcyclic
    have hlt : b < head := Nat.lt_of_le_of_ne hle fun heq => hbase (heq ▸ hb)
    rw [if_pos ((h.any_ring_iff hbs).mpr ⟨b, hlower b hb hlt, hto, hback⟩)]
  · have hfresh : ¬∃ b ∈ bs, g.Passes b head ∧ g.Passes head b := by
      rintro ⟨b, -, hto, hback⟩
      exact hcyclic (hback.trans hto)
    have hring : ¬(g.ring g.transposed head).contains head = true := by
      rw [Std.TreeSet.contains_iff_mem, h.mem_ring_iff hhead]
      exact fun hin => hcyclic (passes_of_from hin.1)
    rw [if_neg (mt (h.any_ring_iff hbs).mp hfresh)]
    dsimp only
    rw [if_neg hring]

/-- Trying a head adds its ring if it is a base, when all lower heads have been tried. -/
theorem Closed.ringsOf_addLoop (h : g.Closed) {hs : List Nat} {loops : List (Std.TreeSet Nat)}
    (hloops : g.RingsOf hs loops) (hhead : head ∈ g.heads) (hnew : head ∉ hs)
    (hlower : ∀ k ∈ g.heads, k < head → k ∈ hs) :
    g.RingsOf (hs ++ [head]) (g.addLoop g.transposed loops head) := by
  obtain ⟨bs, rfl, hnodup, hbs⟩ := hloops
  have hbases : ∀ b ∈ bs, g.Base b := fun b hb => ((hbs b).mp hb).2
  by_cases hbase : g.Base head
  · have hfresh : head ∉ bs := fun hb => hnew ((hbs head).mp hb).1
    rw [hbase.addLoop_eq h hbases hfresh]
    refine ⟨head :: bs, rfl, List.nodup_cons.mpr ⟨hfresh, hnodup⟩, fun b => ?_⟩
    rw [List.mem_cons, hbs, List.mem_append, List.mem_singleton]
    constructor
    · rintro (rfl | ⟨hb, hb'⟩)
      · exact ⟨.inr rfl, hbase⟩
      · exact ⟨.inl hb, hb'⟩
    · rintro ⟨hb | rfl, hb'⟩
      · exact .inr ⟨hb, hb'⟩
      · exact .inl rfl
  · obtain ⟨_, hedge, -⟩ := h.mem_heads.mp hhead
    rw [h.addLoop_eq hbases (fun b hb hlt => (hbs b).mpr ⟨hlower b (hb.mem_heads h) hlt, hb⟩)
      (h.target_mem hedge) hbase]
    refine ⟨bs, rfl, hnodup, fun b => ?_⟩
    rw [hbs, List.mem_append, List.mem_singleton]
    constructor
    · exact fun ⟨hb, hb'⟩ => ⟨.inl hb, hb'⟩
    · rintro ⟨hb | rfl, hb'⟩
      · exact ⟨hb, hb'⟩
      · exact absurd hb' hbase

/-- **The loops** are as many as the bases. -/
theorem Closed.exists_bases (h : g.Closed) :
    ∃ bs : List Nat, bs.Nodup ∧ (∀ b, b ∈ bs ↔ g.Base b) ∧ g.loopCount = bs.length := by
  have hsorted : g.heads.toList.Pairwise (· < ·) :=
    Std.TreeSet.ordered_toList.imp Nat.compare_eq_lt.mp
  have hprefix : ∀ hs later, g.heads.toList = hs ++ later →
      g.RingsOf hs (hs.foldl (g.addLoop g.transposed) []) := by
    intro hs
    induction hs using List.reverseRecOn with
    | nil => exact fun _ _ => ⟨[], rfl, List.nodup_nil, by simp⟩
    | append_singleton hs head ih =>
        intro later heq
        rw [List.append_assoc, List.singleton_append] at heq
        have hmem : ∀ k, k ∈ g.heads ↔ k ∈ hs ∨ k = head ∨ k ∈ later := by
          intro k
          rw [← Std.TreeSet.mem_toList, heq, List.mem_append, List.mem_cons]
        rw [heq, List.pairwise_append, List.pairwise_cons] at hsorted
        obtain ⟨-, ⟨hlater, -⟩, hbefore⟩ := hsorted
        rw [List.foldl_append, List.foldl_cons, List.foldl_nil]
        refine h.ringsOf_addLoop (ih _ heq) ((hmem head).mpr (.inr (.inl rfl))) (fun hin => ?_)
          fun k hk hlt => ?_
        · exact Nat.lt_irrefl _ (hbefore head hin head List.mem_cons_self)
        · rcases (hmem k).mp hk with hk | rfl | hk
          · exact hk
          · exact absurd hlt (Nat.lt_irrefl _)
          · exact absurd hlt (Nat.lt_asymm (hlater k hk))
  obtain ⟨bs, hloops, hnodup, hbs⟩ := hprefix _ [] (List.append_nil _).symm
  refine ⟨bs, hnodup, fun b => ?_, ?_⟩
  · rw [hbs, Std.TreeSet.mem_toList]
    exact and_iff_right_of_imp fun hb => hb.mem_heads h
  · rw [loopCount, loops, hloops, List.length_map]

/-! ## Strongly connected components -/

/-- Nodes that paths lead to from each other. -/
def Mutual (g : FlowGraph) (n m : Nat) : Prop := g.Reaches n m ∧ g.Reaches m n

theorem Mutual.symm (h : g.Mutual n m) : g.Mutual m n := ⟨h.2, h.1⟩

theorem Mutual.trans {k : Nat} (h : g.Mutual n m) (h' : g.Mutual m k) : g.Mutual n k :=
  ⟨h.1.trans h'.1, h'.2.trans h.2⟩

/-- A partition of the nodes into the classes of nodes that paths lead to from each other. -/
structure Components (g : FlowGraph) (cs : List (List Nat)) : Prop where
  nodup : cs.flatten.Nodup
  mem_iff : ∀ n, n ∈ cs.flatten ↔ n ∈ g.nodes
  nonempty : [] ∉ cs
  together : ∀ c ∈ cs, ∀ n ∈ c, ∀ m, m ∈ c ↔ g.Mutual n m

/-- Whether a component has a cycle: it has more nodes than one, or an edge from its node to
itself. -/
def isCyclic (g : FlowGraph) : List Nat → Bool
  | [n] => (g.successors n).contains n
  | _ => true

/-- The node of a component with the least number. -/
def least (c : List Nat) : Nat := c.min?.getD 0

/-- The least node of a component is in it, and no node of it is less. -/
theorem least_mem {c : List Nat} (hc : c ≠ []) : least c ∈ c ∧ ∀ m ∈ c, least c ≤ m := by
  cases hmin : c.min? with
  | none => exact absurd (List.min?_eq_none_iff.mp hmin) hc
  | some k =>
      rw [least, hmin, Option.getD_some]
      exact List.min?_eq_some_iff.mp hmin

namespace Components

variable {cs : List (List Nat)} {c : List Nat}

theorem ne_nil (h : g.Components cs) (hc : c ∈ cs) : c ≠ [] := fun hnil =>
  h.nonempty (hnil ▸ hc)

/-- A component has a cycle just if one of its nodes is on one. -/
theorem isCyclic_iff (h : g.Components cs) (hc : c ∈ cs) :
    g.isCyclic c = true ↔ ∃ n ∈ c, g.Passes n n := by
  have htogether := h.together c hc
  have hnodup := (List.nodup_flatten.mp h.nodup).1 c hc
  match c with
  | [] => exact absurd rfl (h.ne_nil hc)
  | [n] =>
      rw [isCyclic, List.contains_iff_mem]
      constructor
      · exact fun hedge => ⟨n, List.mem_cons_self, .single hedge⟩
      · rintro ⟨k, hk, hcycle⟩
        obtain rfl := List.mem_singleton.mp hk
        obtain ⟨l, hedge, hback⟩ := Relation.TransGen.head'_iff.mp hcycle
        have hl := (htogether k hk l).mpr ⟨.single hedge, hback⟩
        rwa [List.mem_singleton.mp hl] at hedge
  | n :: m :: rest =>
      refine iff_of_true rfl ⟨n, List.mem_cons_self, ?_⟩
      have hne : m ≠ n := fun heq =>
        (List.nodup_cons.mp hnodup).1 (heq ▸ List.mem_cons_self)
      obtain ⟨hto, hback⟩ := (htogether n List.mem_cons_self m).mp
        (List.mem_cons_of_mem n List.mem_cons_self)
      have hto' : g.Passes n m :=
        (Relation.reflTransGen_iff_eq_or_transGen.mp hto).resolve_left hne
      exact hto'.trans_left hback

/-- The bases are the least nodes of the components with a cycle. -/
theorem base_iff (h : g.Components cs) (hg : g.Closed) {b : Nat} :
    g.Base b ↔ ∃ c ∈ cs, g.isCyclic c = true ∧ least c = b := by
  constructor
  · intro hb
    obtain ⟨c, hc, hbc⟩ := List.mem_flatten.mp ((h.mem_iff b).mpr (hb.cyclic.source_mem hg))
    obtain ⟨hleast, hle⟩ := least_mem (h.ne_nil hc)
    refine ⟨c, hc, (h.isCyclic_iff hc).mpr ⟨b, hbc, hb.cyclic⟩, ?_⟩
    obtain ⟨hto, hback⟩ := (h.together c hc b hbc _).mp hleast
    refine Nat.le_antisymm (hle b hbc) (hb.least _ ?_ ?_)
    · exact hb.cyclic.trans_left hto
    · exact hb.cyclic.trans_right hback
  · rintro ⟨c, hc, hcyclic, rfl⟩
    obtain ⟨hleast, hle⟩ := least_mem (h.ne_nil hc)
    obtain ⟨n, hn, hcycle⟩ := (h.isCyclic_iff hc).mp hcyclic
    obtain ⟨hto, hback⟩ := (h.together c hc n hn _).mp hleast
    refine ⟨(hcycle.trans_right hback).trans_left hto, fun m hm hm' => hle m ?_⟩
    exact (h.together c hc _ hleast m).mpr ⟨hm.to_reflTransGen, hm'.to_reflTransGen⟩

/-- **As many components have a cycle** as there are loops. -/
theorem countP_isCyclic (h : g.Components cs) (hg : g.Closed) :
    cs.countP g.isCyclic = g.loopCount := by
  obtain ⟨bs, hnodup, hbs, hcount⟩ := hg.exists_bases
  have hleasts : ((cs.filter g.isCyclic).map least).Nodup := by
    rw [List.Nodup, List.pairwise_map]
    refine (List.Pairwise.imp_of_mem ?_ (List.nodup_flatten.mp h.nodup).2).filter _
    intro c c' hc hc' hdisjoint heq
    exact hdisjoint (least_mem (h.ne_nil hc)).1 (heq ▸ (least_mem (h.ne_nil hc')).1)
  have hperm : ((cs.filter g.isCyclic).map least).Perm bs := by
    refine (List.perm_ext_iff_of_nodup hleasts hnodup).mpr fun b => ?_
    rw [hbs, h.base_iff hg]
    simp only [List.mem_map, List.mem_filter, and_assoc]
  rw [hcount, ← hperm.length_eq, List.length_map, List.countP_eq_length_filter]

end Components

open Classical in
/-- The class of a node, and the nodes outside of it. -/
theorem exists_class {ns : List Nat} (hnodup : ns.Nodup) (hk : n ∈ ns)
    (hmutual : ∀ m, g.Mutual n m → m ∈ ns) : ∃ here others : List Nat, here.Nodup ∧ others.Nodup ∧
      (∀ m, m ∈ here ↔ g.Mutual n m) ∧ (∀ m, m ∈ others ↔ m ∈ ns ∧ ¬g.Mutual n m) ∧
      others.length < ns.length := by
  refine ⟨ns.filter fun m => g.Mutual n m, ns.filter fun m => ¬g.Mutual n m, hnodup.filter _,
    hnodup.filter _, fun m => ?_, fun m => ?_, ?_⟩
  · rw [List.mem_filter, decide_eq_true_iff]
    exact and_iff_right_of_imp (hmutual m)
  · rw [List.mem_filter, decide_eq_true_iff]
  · have hself : g.Mutual n n := ⟨.refl, .refl⟩
    refine List.length_filter_lt_length_iff_exists.mpr ⟨n, hk, ?_⟩
    simp [hself]

/-- Nodes without repetitions that include all that are mutual with them fall into classes. -/
theorem exists_classes (ns : List Nat) (hnodup : ns.Nodup)
    (hmutual : ∀ n ∈ ns, ∀ m, g.Mutual n m → m ∈ ns) :
    ∃ cs : List (List Nat), cs.flatten.Nodup ∧ (∀ n, n ∈ cs.flatten ↔ n ∈ ns) ∧ [] ∉ cs ∧
      ∀ c ∈ cs, ∀ n ∈ c, ∀ m, m ∈ c ↔ g.Mutual n m := by
  induction hlength : ns.length using Nat.strongRecOn generalizing ns with
  | ind size ih =>
      cases ns with
      | nil => exact ⟨[], List.nodup_nil, by simp, by simp, by simp⟩
      | cons k ns =>
          -- The class of the first node, and then those of the others.
          obtain ⟨here, others, hnodup', hnodup'', hhere, hothers, hshorter⟩ :=
            exists_class hnodup List.mem_cons_self (hmutual k List.mem_cons_self)
          have hclosed : ∀ n ∈ others, ∀ m, g.Mutual n m → m ∈ others := by
            intro n hn m hnm
            obtain ⟨hn, hkn⟩ := (hothers n).mp hn
            exact (hothers m).mpr ⟨hmutual n hn m hnm, fun hkm => hkn (hkm.trans hnm.symm)⟩
          obtain ⟨cs, hcs, hmem, hnil, htogether⟩ :=
            ih others.length (hlength ▸ hshorter) others hnodup'' hclosed rfl
          refine ⟨here :: cs, ?_, fun n => ?_, ?_, ?_⟩
          · rw [List.flatten_cons, List.nodup_append']
            refine ⟨hnodup', hcs, fun n hn hn' => ?_⟩
            exact ((hothers n).mp ((hmem n).mp hn')).2 ((hhere n).mp hn)
          · rw [List.flatten_cons, List.mem_append, hmem, hhere, hothers]
            constructor
            · rintro (hn | ⟨hn, -⟩)
              · exact hmutual k List.mem_cons_self n hn
              · exact hn
            · intro hn
              by_cases hkn : g.Mutual k n
              · exact .inl hkn
              · exact .inr ⟨hn, hkn⟩
          · rw [List.mem_cons, not_or]
            refine ⟨fun heq => ?_, hnil⟩
            have hk : k ∈ here := (hhere k).mpr ⟨.refl, .refl⟩
            rw [← heq] at hk
            cases hk
          · refine List.forall_mem_cons.mpr ⟨fun n hn m => ?_, htogether⟩
            have hkn := (hhere n).mp hn
            rw [hhere]
            exact ⟨hkn.symm.trans, hkn.trans⟩

/-- **Every closed graph has components.** -/
theorem Closed.exists_components (h : g.Closed) : ∃ cs, g.Components cs := by
  have hmutual : ∀ n ∈ g.nodes, ∀ m, g.Mutual n m → m ∈ g.nodes := by
    intro n hn m hnm
    rcases Relation.ReflTransGen.cases_tail hnm.1 with heq | ⟨k, -, hedge⟩
    · exact heq ▸ hn
    · exact h.target_mem hedge
  obtain ⟨cs, hnodup, hmem, hnil, htogether⟩ := exists_classes g.nodes h.nodup hmutual
  exact ⟨cs, hnodup, hmem, hnil, htogether⟩

end FlowGraph

end SharpMutants
