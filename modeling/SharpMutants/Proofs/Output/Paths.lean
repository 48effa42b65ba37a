import SharpMutants.Output.Disk

/-!
# Where paths lead

The steps of a path say where it leads (`Path.location`), whatever is there.  A path passes the
locations to which its first steps lead (`Path.Passes`); without steps back up these are the
location of the path and those above it (`Passes.isPrefix`).  Joining a name to a path adds a
step (`steps_join`), and the paths above a path pass no location that it does not pass
(`passes_of_mem_above`).
-/

namespace SharpMutants

/-- Where a step leads. -/
def Location.go (l : Location) (step : Text) : Location :=
  if step = ['.'] then l else if step = ['.', '.'] then l.dropLast else l ++ [step]

/-- Where steps lead, one after another. -/
def Location.follow (l : Location) (steps : List Text) : Location := steps.foldl go l

namespace Path

/-- The location to which a path leads. -/
def location (p : Path) : Location := Location.follow [] p.steps

/-- Some first steps of a path lead to a location. -/
def Passes (p : Path) (l : Location) : Prop := ∃ k, l = Location.follow [] (p.steps.take k)

/-- A path that never goes back up. -/
def Descends (p : Path) : Prop := ['.', '.'] ∉ p.steps

/-- A step that is the name of an entry. -/
structure IsName (n : Text) : Prop where
  ne_nil : n ≠ []
  slash : '/' ∉ n
  ne_dot : n ≠ ['.']
  ne_dots : n ≠ ['.', '.']

variable {p q : Path} {n : Text} {l : Location}

/-! ## Steps -/

/-- The parts of a path around a slash are those on both sides. -/
theorem partsAfter_append_slash (read p q : Text) :
    partsAfter read (p ++ '/' :: q) = partsAfter read p ++ partsAfter [] q := by
  induction p generalizing read with
  | nil => rfl
  | cons c p ih =>
      rw [List.cons_append, partsAfter, partsAfter]
      split
      · rw [ih, List.cons_append]
      · rw [ih]

/-- A text without a slash is one part. -/
theorem partsAfter_of_not_mem (read : Text) (h : '/' ∉ n) : partsAfter read n = [read ++ n] := by
  induction n generalizing read with
  | nil => rw [partsAfter, List.append_nil]
  | cons c n ih =>
      rw [List.mem_cons, not_or] at h
      rw [partsAfter, if_neg (Ne.symm h.1), ih _ h.2, List.append_assoc, List.singleton_append]

/-- No part of a path has a slash. -/
theorem slash_not_mem_partsAfter (read p : Text) (h : '/' ∉ read) :
    ∀ part ∈ partsAfter read p, '/' ∉ part := by
  induction p generalizing read with
  | nil => simpa [partsAfter] using h
  | cons c p ih =>
      rw [partsAfter]
      split
      · rw [List.forall_mem_cons]
        exact ⟨h, ih [] (List.not_mem_nil)⟩
      · exact ih _ (by simp [h, Ne.symm ‹¬c = '/'›])

/-- The steps of a path around a slash are those on both sides. -/
theorem steps_append_slash (p q : Text) : steps (p ++ '/' :: q) = steps p ++ steps q := by
  rw [steps, partsAfter_append_slash, List.filter_append, steps, steps]

/-- A name is one step. -/
theorem steps_of_not_mem (hne : n ≠ []) (hslash : '/' ∉ n) : steps n = [n] := by
  rw [steps, partsAfter_of_not_mem [] hslash, List.nil_append]
  simpa using hne

theorem steps_nil : steps [] = [] := rfl

/-- The steps of a path are parts that are not empty. -/
theorem step_ne_nil (h : n ∈ p.steps) : n ≠ [] ∧ '/' ∉ n := by
  rw [steps, List.mem_filter] at h
  exact ⟨by simpa using h.2, slash_not_mem_partsAfter [] p List.not_mem_nil n h.1⟩

/-- **Joining a name to a path** adds a step. -/
theorem steps_join (h : IsName n) (p : Path) : (p.join n).steps = p.steps ++ [n] := by
  have hname := steps_of_not_mem h.ne_nil h.slash
  have hhead : n.head? ≠ some '/' := fun hhead => h.slash (List.mem_of_head? hhead)
  rw [join]
  split
  · rename_i hcases
    have hempty : p = [] := by simpa [hhead] using hcases
    rw [hempty, hname, steps_nil, List.nil_append]
  · split
    · rename_i hslash
      obtain ⟨front, rfl⟩ := List.getLast?_eq_some_iff.mp hslash
      rw [List.append_assoc, List.singleton_append, steps_append_slash, hname,
        steps_append_slash, steps_nil, List.append_nil]
    · rw [steps_append_slash, hname]

/-- More characters behind a name under a path are part of the name. -/
theorem join_append (h : IsName n) (p : Path) (more : Text) :
    p.join n ++ more = p.join (n ++ more) := by
  obtain ⟨c, n, rfl⟩ := List.exists_cons_of_ne_nil h.ne_nil
  rw [join, join, List.cons_append, List.head?_cons, List.head?_cons]
  split
  · rfl
  · split
    · rw [List.append_assoc, List.cons_append]
    · rw [List.append_assoc, List.cons_append, List.cons_append]

/-- A name under a path does not end in a slash. -/
theorem endsInSlash_join (h : IsName n) (p : Path) : (p.join n).endsInSlash = false := by
  have hlast : n.getLast? ≠ some '/' := fun hlast => h.slash (List.mem_of_getLast? hlast)
  have hends : ∀ front : Text, (front ++ n).getLast? = n.getLast? := fun front => by
    rw [List.getLast?_append]
    cases hn : n.getLast? with
    | none => exact absurd (List.getLast?_eq_none_iff.mp hn) h.ne_nil
    | some c => rfl
  rw [endsInSlash, join, decide_eq_false_iff_not]
  split
  · exact hlast
  · split
    · rwa [hends]
    · rwa [← List.singleton_append, ← List.append_assoc, hends]

/-! ## Locations -/

/-- Steps in a row lead where the second ones lead from where the first do. -/
theorem follow_append (l : Location) (ss ts : List Text) :
    l.follow (ss ++ ts) = (l.follow ss).follow ts := List.foldl_append

/-- A name leads to the entry with that name. -/
theorem go_name (h : IsName n) (l : Location) : l.go n = l ++ [n] := by
  rw [Location.go, if_neg h.ne_dot, if_neg h.ne_dots]

/-- A name under a path is located in the directory of the path. -/
theorem location_join (h : IsName n) (p : Path) : (p.join n).location = p.location ++ [n] := by
  rw [location, steps_join h, follow_append, ← location]
  exact go_name h p.location

/-- Steps that stay lead nowhere else. -/
theorem follow_filter (l : Location) (ss : List Text) :
    l.follow (ss.filter fun step => step != ['.']) = l.follow ss := by
  induction ss generalizing l with
  | nil => rfl
  | cons s ss ih =>
      rw [List.filter_cons]
      split
      · exact ih (l.go s)
      · rename_i hdot
        have hs : s = ['.'] := by simpa using hdot
        have hstays : l.go s = l := by rw [Location.go, if_pos hs]
        rw [ih, Location.follow, Location.follow, List.foldl_cons, hstays]

/-- First steps of those that do not stay are first steps with those that stay. -/
theorem exists_take_filter (keep : Text → Bool) (ss : List Text) (n : Nat) :
    ∃ k, (ss.filter keep).take n = (ss.take k).filter keep := by
  induction ss generalizing n with
  | nil => exact ⟨0, by simp⟩
  | cons s ss ih =>
      cases n with
      | zero => exact ⟨0, by simp⟩
      | succ n =>
          rw [List.filter_cons]
          split
          · obtain ⟨k, hk⟩ := ih n
            exact ⟨k + 1, by rw [List.take_succ_cons, List.take_succ_cons, hk,
              List.filter_cons_of_pos ‹_›]⟩
          · obtain ⟨k, hk⟩ := ih (n + 1)
            exact ⟨k + 1, by rw [hk, List.take_succ_cons, List.filter_cons_of_neg ‹_›]⟩

/-- The steps of names with slashes between them are the names. -/
theorem steps_intercalate {ss : List Text} (h : ∀ s ∈ ss, s ≠ [] ∧ '/' ∉ s) :
    steps (['/'].intercalate ss) = ss := by
  induction ss with
  | nil => rfl
  | cons s ss ih =>
      rw [List.forall_mem_cons] at h
      cases ss with
      | nil => simpa [List.intercalate] using steps_of_not_mem h.1.1 h.1.2
      | cons s' ss =>
          rw [List.intercalate_cons_cons, List.append_assoc, List.singleton_append,
            steps_append_slash, steps_of_not_mem h.1.1 h.1.2, ih h.2, List.singleton_append]

/-- A path passes where it leads. -/
theorem passes_location (p : Path) : p.Passes p.location :=
  ⟨p.steps.length, by rw [location, List.take_length]⟩

/-- **The paths above a path** lead to locations that it passes. -/
theorem passes_of_mem_above (h : q ∈ p.above) : p.Passes q.location := by
  rw [above, List.mem_map] at h
  obtain ⟨n, -, rfl⟩ := h
  obtain ⟨k, hk⟩ := exists_take_filter (fun step => step != ['.']) p.steps n
  have hnames : ∀ s ∈ p.names.take n, s ≠ [] ∧ '/' ∉ s := fun s hs =>
    step_ne_nil (List.mem_filter.mp (List.mem_of_mem_take hs)).1
  refine ⟨k, ?_⟩
  rw [location, steps_intercalate hnames, names, hk, follow_filter]

/-- Without steps back up a path passes only what is above its location, and that itself. -/
theorem Passes.isPrefix (h : p.Passes l) (hp : p.Descends) : l <+: p.location := by
  obtain ⟨k, rfl⟩ := h
  have hfollow : ∀ ss : List Text, ['.', '.'] ∉ ss → ∀ l : Location, l <+: l.follow ss := by
    intro ss hss
    induction ss with
    | nil => exact fun l => List.prefix_refl l
    | cons s ss ih =>
        rw [List.mem_cons, not_or] at hss
        intro l
        have hstep : l <+: l.go s := by
          rw [Location.go]
          split
          · exact List.prefix_refl l
          · rw [if_neg (Ne.symm hss.1)]
            exact List.prefix_append l [s]
        exact hstep.trans (ih hss.2 _)
  rw [location]
  conv => rhs; rw [← List.take_append_drop k p.steps]
  rw [follow_append]
  exact hfollow _ (fun hmem => hp (List.mem_of_mem_drop hmem)) _

/-- Without steps back up a path passes nothing below its location. -/
theorem not_passes_below {more : Location} (hp : p.Descends) (hmore : more ≠ []) :
    ¬ p.Passes (p.location ++ more) := by
  intro h
  have hlength := (h.isPrefix hp).length_le
  rw [List.length_append] at hlength
  exact hmore (List.length_eq_zero_iff.mp (by omega))

end Path

end SharpMutants
