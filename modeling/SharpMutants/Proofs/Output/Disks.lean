import SharpMutants.Proofs.Output.Paths

/-!
# The entries of a disk

What a change does to the entries of a disk, location by location.  Putting an entry and taking a
tree away each change what is at one location, or below it, and nothing else (`entryAt?_put`,
`entryAt?_without`); moving a tree changes what is below two (`entryAt?_move`).  A disk is
`Sound` if every entry stands in a directory.
-/

namespace SharpMutants

namespace Disk

variable {d : Disk} {l l' : Location}

/-- Every entry stands in a directory. -/
def Sound (d : Disk) : Prop :=
  ∀ l n, d.entryAt? (l ++ [n]) ≠ none → d.entryAt? l = some .directory

/-! ## Entries -/

theorem entryAt?_nil (d : Disk) : d.entryAt? [] = some .directory := rfl

/-- Below the top an entry is what the disk lists. -/
theorem entryAt?_of_ne_nil (d : Disk) (h : l ≠ []) :
    d.entryAt? l = (d.find? fun e => e.1 == l).map Prod.snd := by
  rw [entryAt?, if_neg (by simpa using h)]

/-- A disk is sound if every entry that it lists stands in a directory. -/
theorem sound_of_parents (h : ∀ e ∈ d, d.entryAt? e.1.dropLast = some .directory) : d.Sound := by
  intro l n hne
  rw [entryAt?_of_ne_nil d (List.concat_ne_nil n l), ne_eq,
    Option.map_eq_none_iff, ← ne_eq, Option.ne_none_iff_exists'] at hne
  obtain ⟨e, he⟩ := hne
  have hlocation : e.1 = l ++ [n] := by simpa using List.find?_some he
  have hparent := h e (List.mem_of_find?_eq_some he)
  rwa [hlocation, List.dropLast_concat] at hparent

/-- What is within a location has it as a beginning. -/
theorem within_iff : within l l' = true ↔ l <+: l' := List.isPrefixOf_iff_prefix

/-- What is left at a location when entries are kept by their location. -/
theorem entryAt?_filter (d : Disk) (keep : Location → Bool) (hl : l ≠ []) :
    entryAt? (d.filter fun e => keep e.1) l = if keep l then d.entryAt? l else none := by
  rw [entryAt?_of_ne_nil _ hl, entryAt?_of_ne_nil d hl]
  induction d with
  | nil => simp
  | cons e d ih =>
      by_cases hkeep : keep e.1 = true
      · rw [List.filter_cons, if_pos hkeep, List.find?_cons, List.find?_cons]
        by_cases he : e.1 = l
        · rw [beq_iff_eq.mpr he, ← he, if_pos hkeep]
        · rw [beq_eq_false_iff_ne.mpr he]
          exact ih
      · rw [List.filter_cons, if_neg hkeep, ih, List.find?_cons]
        by_cases he : e.1 = l
        · rw [← he, if_neg hkeep, if_neg hkeep]
        · rw [beq_eq_false_iff_ne.mpr he]

/-- What is at a location when entries have moved there from another. -/
theorem entryAt?_map (d : Disk) {f : Location → Location} (hl : l ≠ []) (hl' : l' ≠ [])
    (h : ∀ e ∈ d, f e.1 = l' ↔ e.1 = l) :
    entryAt? (d.map fun e => (f e.1, e.2)) l' = d.entryAt? l := by
  rw [entryAt?_of_ne_nil _ hl', entryAt?_of_ne_nil d hl]
  induction d with
  | nil => rfl
  | cons e d ih =>
      rw [List.forall_mem_cons] at h
      rw [List.map_cons, List.find?_cons, List.find?_cons]
      by_cases he : e.1 = l
      · rw [beq_iff_eq.mpr he, beq_iff_eq.mpr (h.1.mpr he)]
        rfl
      · rw [beq_eq_false_iff_ne.mpr he, beq_eq_false_iff_ne.mpr (mt h.1.mp he)]
        exact ih h.2

/-- Nothing is at a location to which no entry has moved. -/
theorem entryAt?_map_none (d : Disk) {f : Location → Location} (hl' : l' ≠ [])
    (h : ∀ e ∈ d, f e.1 ≠ l') : entryAt? (d.map fun e => (f e.1, e.2)) l' = none := by
  rw [entryAt?_of_ne_nil _ hl', Option.map_eq_none_iff, List.find?_eq_none, List.forall_mem_map]
  exact fun e he heq => h e he (beq_iff_eq.mp heq)

/-- What is put at a location is there, and the rest stays. -/
theorem entryAt?_put (d : Disk) (e : Entry) (hl : l ≠ []) (l' : Location) :
    (d.put l e).entryAt? l' = if l' = l then some e else d.entryAt? l' := by
  by_cases hnil : l' = []
  · rw [hnil, entryAt?_nil, if_neg (Ne.symm hl), entryAt?_nil]
  · have hkept := entryAt?_filter d (· != l) hnil
    rw [entryAt?_of_ne_nil _ hnil] at hkept ⊢
    rw [put, List.find?_append]
    by_cases h : l' = l
    · rw [if_neg (by simpa using h), Option.map_eq_none_iff] at hkept
      rw [hkept, h]
      simp
    · rw [if_pos (by simpa using h)] at hkept
      rw [if_neg h, ← hkept]
      cases List.find? (fun e => e.1 == l') (d.filter fun e => e.1 != l) with
      | none => simp [Ne.symm h]
      | some e => rfl

/-- What is taken away is not there, nor what is below it, and the rest stays. -/
theorem entryAt?_without (d : Disk) (hl : l ≠ []) (l' : Location) :
    (d.without l).entryAt? l' = if l <+: l' then none else d.entryAt? l' := by
  by_cases hnil : l' = []
  · have hout : ¬ l <+: l' := fun h => h.ne_nil hl hnil
    rw [if_neg hout, hnil, entryAt?_nil, entryAt?_nil]
  · rw [without, entryAt?_filter d (fun e => !within l e) hnil]
    by_cases h : l <+: l'
    · rw [if_pos h, within_iff.mpr h]
      rfl
    · rw [if_neg h, Bool.eq_false_iff.mpr (mt within_iff.mp h)]
      rfl

/-- Where a move takes an entry. -/
def carry (source target l : Location) : Location :=
  if source <+: l then target ++ l.drop source.length else l

/-- A move takes to a place below its target what was at that place below its source. -/
theorem carry_eq_append {source target rest : Location} (hkept : source <+: l ∨ ¬ target <+: l) :
    carry source target l = target ++ rest ↔ l = source ++ rest := by
  rw [carry]
  split
  · rename_i hwithin
    obtain ⟨below, rfl⟩ := hwithin
    rw [List.drop_left, List.append_cancel_left_eq, List.append_cancel_left_eq]
  · rename_i hout
    constructor
    · rintro rfl
      exact absurd (List.prefix_append target rest) (hkept.resolve_left hout)
    · rintro rfl
      exact absurd (List.prefix_append source rest) hout

/-- **Moving a tree**: what is below the goal was below the origin, and the origin is gone. -/
theorem entryAt?_move (d : Disk) {source target : Location} (hsource : source ≠ [])
    (htarget : target ≠ []) (l : Location) : (d.move source target).entryAt? l =
      if target <+: l then d.entryAt? (source ++ l.drop target.length)
      else if source <+: l then none else d.entryAt? l := by
  let kept : Disk := d.filter fun e => within source e.1 || !within target e.1
  have hkept : ∀ e ∈ kept, source <+: e.1 ∨ ¬ target <+: e.1 := fun e he => by
    have hkeep := (List.mem_filter.mp he).2
    rwa [Bool.or_eq_true, Bool.not_eq_true', ← Bool.not_eq_true, within_iff, within_iff] at hkeep
  have hmove : d.move source target = kept.map fun e => (carry source target e.1, e.2) := by
    refine List.map_congr_left fun e _ => ?_
    obtain ⟨l, e⟩ := e
    by_cases hwithin : source <+: l
    · exact (if_pos (within_iff.mpr hwithin)).trans (by rw [carry, if_pos hwithin])
    · exact (if_neg (mt within_iff.mp hwithin)).trans (by rw [carry, if_neg hwithin])
  have hentry : ∀ l, l ≠ [] → source <+: l ∨ ¬ target <+: l → kept.entryAt? l = d.entryAt? l := by
    intro l hl hstays
    refine (entryAt?_filter d (fun l => within source l || !within target l) hl).trans (if_pos ?_)
    rwa [Bool.or_eq_true, Bool.not_eq_true', ← Bool.not_eq_true, within_iff, within_iff]
  rw [hmove]
  by_cases htop : l = []
  · rw [htop, if_neg (mt List.prefix_nil.mp htarget), if_neg (mt List.prefix_nil.mp hsource)]
    rfl
  split
  · rename_i hbelow
    obtain ⟨rest, rfl⟩ := hbelow
    rw [List.drop_left, ← hentry _ (List.append_ne_nil_of_left_ne_nil hsource rest)
      (.inl (List.prefix_append source rest))]
    exact entryAt?_map kept (List.append_ne_nil_of_left_ne_nil hsource rest) htop
      fun e he => carry_eq_append (hkept e he)
  · rename_i hbelow
    have hcarry : ∀ e : Location, carry source target e = l ↔ ¬ source <+: e ∧ e = l := by
      intro e
      rw [carry]
      split
      · rename_i hwithin
        refine ⟨?_, fun h => absurd hwithin h.1⟩
        rintro rfl
        exact absurd (List.prefix_append target _) hbelow
      · rename_i hout
        exact ⟨fun h => ⟨hout, h⟩, And.right⟩
    split
    · rename_i hwithin
      refine entryAt?_map_none kept htop fun e _ => mt (hcarry e.1).mp ?_
      rintro ⟨hout, rfl⟩
      exact hout hwithin
    · rename_i hout
      rw [← hentry l htop (.inr hbelow)]
      refine entryAt?_map kept htop htop fun e _ => (hcarry e.1).trans ⟨And.right, ?_⟩
      rintro rfl
      exact ⟨hout, rfl⟩

end Disk

end SharpMutants
