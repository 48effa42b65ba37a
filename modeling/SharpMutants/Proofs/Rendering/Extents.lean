import SharpMutants.Proofs.Mutation.Scopes
import SharpMutants.Proofs.Rendering.Lossless

/-!
# Extents of nodes

The extents of the nodes of a document are nested as the nodes are: a node lies within
every node that it is below (`Laid.within`), and of two nodes neither of which is below
the other the first ends before the other begins (`Laid.stop_le_start`).  Every node but
the root covers some text (`nonempty_of_parse`), so two methods differ in their extents:
`eq_of_span_eq`.
-/

namespace SharpMutants

section Nested

variable {s : Text} {t u v : Tree} {m n : Nat} {a b : Nat} {cs : List Tree}

/-- A node lies within the nodes that it is below. -/
theorem Laid.within (h : Laid s t) (hu : u ∈ t.subtrees) :
    t.span.start ≤ u.span.start ∧ u.span.stop ≤ t.span.stop := by
  induction h with
  | @node d cs _ _ order _ _ ih =>
      rw [Tree.subtrees_node, List.mem_cons] at hu
      rcases hu with rfl | hu
      · exact ⟨Nat.le_refl _, Nat.le_refl _⟩
      · obtain ⟨c, hc, hu⟩ := Tree.mem_subtreesOf.mp hu
        obtain ⟨hstart, hstop⟩ := ih c hc hu
        obtain ⟨hbefore, -, hafter⟩ := order.of_mem (List.mem_map_of_mem hc)
        exact ⟨Nat.le_trans hbefore.le hstart, Nat.le_trans hstop hafter.le⟩

/-- Among children in order, what is behind another node begins where that ends or later. -/
theorem Laid.stop_le_start_of_children (hcs : ∀ c ∈ cs, Laid s c)
    (horder : s.InOrder a b (cs.map Tree.span))
    (ih : ∀ c ∈ cs, ∀ {n m u v}, c.subtree? n = some u → c.subtree? m = some v →
      n + u.size ≤ m → u.span.stop ≤ v.span.start)
    (hu : (Tree.subtreesOf cs)[n]? = some u) (hv : (Tree.subtreesOf cs)[m]? = some v)
    (hnm : n + u.size ≤ m) : u.span.stop ≤ v.span.start := by
  induction cs generalizing a n m with
  | nil => cases hu
  | cons c cs ihs =>
      rw [List.forall_mem_cons] at hcs ih
      obtain ⟨-, -, hrest⟩ := horder
      rw [Tree.subtreesOf_cons] at hu hv
      by_cases hn : n < c.subtrees.length
      · rw [List.getElem?_append_left hn] at hu
        by_cases hm : m < c.subtrees.length
        · rw [List.getElem?_append_left hm] at hv
          exact ih.1 hu hv hnm
        · -- One is below the first child, the other below a later one.
          rw [List.getElem?_append_right (by omega)] at hv
          obtain ⟨c', hc', hv⟩ := Tree.mem_subtreesOf.mp (List.mem_of_getElem? hv)
          have hstop := (hcs.1.within (List.mem_of_getElem? hu)).2
          have hbetween := (hrest.of_mem (List.mem_map_of_mem hc')).1.le
          have hstart := ((hcs.2 c' hc').within hv).1
          exact Nat.le_trans hstop (Nat.le_trans hbetween hstart)
      · rw [List.getElem?_append_right (by omega)] at hu hv
        exact ihs hcs.2 hrest ih.2 hu hv (by omega)

/-- **What comes behind a node in preorder**, and not below it, begins behind its end. -/
theorem Laid.stop_le_start (h : Laid s t) (hu : t.subtree? n = some u)
    (hv : t.subtree? m = some v) (hnm : n + u.size ≤ m) : u.span.stop ≤ v.span.start := by
  induction h generalizing n m u v with
  | @node d cs _ _ order _ hcs ih =>
      have hm : m < (Tree.node d cs).size := by
        rw [← Tree.length_subtrees]
        exact (List.getElem?_eq_some_iff.mp hv).1
      rw [Tree.subtree?, Tree.subtrees_node] at hu hv
      cases n with
      | zero =>
          obtain rfl := Option.some.inj hu
          omega
      | succ n =>
          cases m with
          | zero => omega
          | succ m =>
              rw [List.getElem?_cons_succ] at hu hv
              exact Laid.stop_le_start_of_children hcs order (fun c hc => ih c hc) hu hv (by omega)

end Nested

/-- Every node of a derived tree covers some text. -/
theorem Derives.nonempty {s : Text} {sym : Symbol} {ts : List Token} {t : Tree}
    (h : Derives sym ts t) (hsym : sym ≠ .unit) {a b : Nat}
    (horder : s.InOrder a b (ts.map Token.span)) (hstands : ∀ t ∈ ts, t.Stands s) :
    ∀ u ∈ t.subtrees, u.span.start < u.span.stop := by
  revert hsym a b horder hstands
  refine h.inductionOn (motive := fun sym ts t => sym ≠ .unit → ∀ {a b : Nat},
    s.InOrder a b (ts.map Token.span) → (∀ t ∈ ts, t.Stands s) →
      ∀ u ∈ t.subtrees, u.span.start < u.span.stop) ?_
  intro sym k ss ts own cs rule row hsym a b horder hstands u hu
  have hts : ts ≠ [] := (Derives.node rule (row.mono fun _ _ _ => And.left)).ne_nil hsym
  rw [Tree.subtrees_node, List.mem_cons] at hu
  rcases hu with rfl | hu
  · obtain ⟨first, rest, rfl⟩ := List.exists_cons_of_ne_nil hts
    rw [← List.append_nil (first :: rest)] at horder
    obtain ⟨-, ⟨-, -, hrest⟩, -⟩ := horder.cut_hull hts
    exact Nat.lt_of_lt_of_le (hstands first List.mem_cons_self).nonempty hrest.range.le
  · obtain ⟨c, hc, hu⟩ := Tree.mem_subtreesOf.mp hu
    have hss : ∀ s ∈ Part.children (k.phrase ss), s ≠ .unit := by
      rw [rule.children rfl]
      exact rule.ne_unit
    refine row.forall_standing (P := fun c => ∀ u ∈ c.subtrees, u.span.start < u.span.stop)
      ?_ (fun sym ts t hsym h => h.2 hsym) hss horder hstands c hc u hu
    exact fun sym ts t hsym h => ⟨h.1.ne_nil hsym, h.1.span_eq⟩

section Parsed

variable {source : Text} {d : Document} {m n : Nat} {u v : Tree}

/-- Every node of a document but the root covers some text. -/
theorem nonempty_of_parse (h : parse source = .ok d) (hu : d.tree.subtree? (n + 1) = some u) :
    u.span.start < u.span.stop := by
  obtain ⟨ts, e, ss, cs, hscans, -, hspelled, rule, row, htree⟩ := exists_row_of_parse h
  obtain ⟨horder, hstands⟩ := hscans.inOrder (List.nil_append source).symm rfl
  have hts : ∀ t ∈ ts, t.Stands source := fun t ht =>
    hstands t (List.mem_append_left _ ht) (hspelled t ht).ne_end
  rw [List.map_append] at horder
  rw [htree, Tree.subtree?, Tree.subtrees_node, List.getElem?_cons_succ] at hu
  obtain ⟨c, hc, hu⟩ := Tree.mem_subtreesOf.mp (List.mem_of_getElem? hu)
  have hss : ∀ s ∈ Part.children (Kind.compilationUnit.phrase ss), s ≠ .unit := by
    rw [rule.children rfl]
    exact rule.ne_unit
  refine row.forall_standing (P := fun c => ∀ u ∈ c.subtrees, u.span.start < u.span.stop)
    ?_ (fun sym ts t hsym h => h.nonempty hsym) hss horder.left hts c hc u hu
  exact fun sym ts t hsym h => ⟨h.ne_nil hsym, h.span_eq⟩

/-- A method is not the root of a tree. -/
theorem Tree.Grammatical.ne_zero_of_mem_methods {t : Tree} (h : t.Grammatical)
    (hm : m ∈ t.methods) : m ≠ 0 := by
  intro hzero
  obtain ⟨u, hu, hmethod⟩ := Tree.mem_methods.mp hm
  obtain @⟨_, d, ss, cs, rule, -, -⟩ := h
  rw [hzero, Tree.subtree?, Tree.subtrees_node, List.getElem?_cons_zero] at hu
  obtain rfl := Option.some.inj hu
  change d.kind.isMethod = true at hmethod
  generalize d.kind = k at rule hmethod
  cases rule with
  | compilationUnit => cases hmethod

/-- Of two methods the first ends before the other begins. -/
theorem stop_le_start_of_methods (h : parse source = .ok d) (hm : m ∈ d.tree.methods)
    (hn : n ∈ d.tree.methods) (hu : d.tree.subtree? m = some u) (hv : d.tree.subtree? n = some v)
    (hlt : m < n) : u.span.stop ≤ v.span.start := by
  obtain ⟨-, -, -, -, -, hgrammatical, -⟩ := conforms_of_parse h
  apply (laid_of_parse h).2.1.stop_le_start hu hv
  by_cases hbelow : n < m + u.size
  · have heq := hgrammatical.eq_of_below_method hm hn ⟨u, hu, Nat.le_of_lt hlt, hbelow⟩
    omega
  · omega

/-- What covers some text lies within one method at most. -/
theorem eq_of_within_methods (h : parse source = .ok d) (hm : m ∈ d.tree.methods)
    (hn : n ∈ d.tree.methods) (hu : d.tree.subtree? m = some u) (hv : d.tree.subtree? n = some v)
    {span : Span} (hspan : span.start < span.stop)
    (hin : u.span.start ≤ span.start ∧ span.stop ≤ u.span.stop)
    (hin' : v.span.start ≤ span.start ∧ span.stop ≤ v.span.stop) : m = n := by
  rcases Nat.lt_trichotomy m n with hlt | heq | hlt
  · have hle := stop_le_start_of_methods h hm hn hu hv hlt
    omega
  · exact heq
  · have hle := stop_le_start_of_methods h hn hm hv hu hlt
    omega

/-- **Two methods differ in their extents.** -/
theorem eq_of_span_eq (h : parse source = .ok d) (hm : m ∈ d.tree.methods)
    (hn : n ∈ d.tree.methods) (hu : d.tree.subtree? m = some u) (hv : d.tree.subtree? n = some v)
    (hspan : u.span = v.span) : m = n := by
  obtain ⟨-, -, -, -, -, hgrammatical, -⟩ := conforms_of_parse h
  have hnonempty : u.span.start < u.span.stop := by
    obtain ⟨k, rfl⟩ := Nat.exists_eq_succ_of_ne_zero (hgrammatical.ne_zero_of_mem_methods hm)
    exact nonempty_of_parse h hu
  refine eq_of_within_methods h hm hn hu hv hnonempty ⟨Nat.le_refl _, Nat.le_refl _⟩ ?_
  rw [hspan]
  exact ⟨Nat.le_refl _, Nat.le_refl _⟩

end Parsed

end SharpMutants
