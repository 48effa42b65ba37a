/-!
# Sets of facts

A fact set is a list in strictly ascending order, so two sets with the same
elements are equal, and all output about a set has one order.  Facts about
variables pair a place with a name; they are ordered by place, then by name.

The key local facts are `mem_insert`, `mem_ofList`, `mem_union`, `mem_unions` and
`mem_filter`: the operations do to the elements what their names say.
-/

namespace SharpMutants

open Std

/-- A set of facts as an ascending list. -/
structure FactSet (α : Type) [Ord α] where
  toList : List α
  ascending : toList.Pairwise fun a b => compare a b = .lt

namespace FactSet

variable {α : Type} [Ord α]

instance [DecidableEq α] : DecidableEq (FactSet α) := fun s t =>
  if h : s.toList = t.toList then
    isTrue (by cases s; cases t; cases h; rfl)
  else isFalse fun e => h (congrArg toList e)

/-- The set without elements. -/
def empty : FactSet α := ⟨[], .nil⟩

instance : Membership α (FactSet α) := ⟨fun s a => a ∈ s.toList⟩

theorem mem_def {a : α} {s : FactSet α} : a ∈ s ↔ a ∈ s.toList := Iff.rfl

/-- An element is put in its place in an ascending list, once. -/
def insertSorted (a : α) : List α → List α
  | [] => [a]
  | b :: bs =>
    match compare a b with
    | .lt => a :: b :: bs
    | .eq => b :: bs
    | .gt => b :: insertSorted a bs

/-- Inserting into a sorted list adds one element. -/
theorem mem_insertSorted [LawfulEqOrd α] {a x : α} {bs : List α} :
    x ∈ insertSorted a bs ↔ x = a ∨ x ∈ bs := by
  induction bs with
  | nil => simp [insertSorted]
  | cons b bs ih =>
      unfold insertSorted
      split
      · simp
      · rename_i h
        have hab : a = b := LawfulEqOrd.eq_of_compare h
        subst hab
        simp
      · simp only [List.mem_cons, ih]
        constructor
        · rintro (h | h | h) <;> simp [h]
        · rintro (h | h | h) <;> simp [h]

/-- A sorted list stays sorted when an element is inserted. -/
theorem ascending_insertSorted [TransOrd α] [LawfulEqOrd α] (a : α) {bs : List α}
    (h : bs.Pairwise fun a b => compare a b = .lt) :
    (insertSorted a bs).Pairwise fun a b => compare a b = .lt := by
  induction bs with
  | nil => simp [insertSorted]
  | cons b bs ih =>
      obtain ⟨hb, hbs⟩ := List.pairwise_cons.mp h
      unfold insertSorted
      split
      · rename_i hab
        refine List.pairwise_cons.mpr ⟨?_, h⟩
        intro x hx
        rcases List.mem_cons.mp hx with rfl | hx
        · exact hab
        · exact TransCmp.lt_trans hab (hb x hx)
      · exact h
      · rename_i hab
        refine List.pairwise_cons.mpr ⟨?_, ih hbs⟩
        intro x hx
        rcases mem_insertSorted.mp hx with rfl | hx
        · exact OrientedCmp.lt_of_gt hab
        · exact hb x hx

/-- The set with one more element. -/
def insert [TransOrd α] [LawfulEqOrd α] (s : FactSet α) (a : α) : FactSet α :=
  ⟨insertSorted a s.toList, ascending_insertSorted a s.ascending⟩

/-- A set with an element inserted has that element and what it had before. -/
theorem mem_insert [TransOrd α] [LawfulEqOrd α] {s : FactSet α} {a x : α} :
    x ∈ s.insert a ↔ x = a ∨ x ∈ s := mem_insertSorted

/-- The set of the elements of a list. -/
def ofList [TransOrd α] [LawfulEqOrd α] (as : List α) : FactSet α :=
  as.foldr (fun a s => s.insert a) empty

/-- The set of a list has the elements of the list. -/
theorem mem_ofList [TransOrd α] [LawfulEqOrd α] {as : List α} {x : α} :
    x ∈ ofList as ↔ x ∈ as := by
  induction as with
  | nil => simp [ofList, empty, mem_def]
  | cons a as ih =>
      have h : x ∈ (ofList as).insert a ↔ x = a ∨ x ∈ as := by rw [mem_insert, ih]
      rw [List.mem_cons]
      exact h

/-- An element is put in front of the ascending lists that a function makes of what is left
of another list, among the elements of that list. -/
def mergeHead (a : α) (rest : List α → List α) : List α → List α
  | [] => a :: rest []
  | b :: bs =>
    match compare a b with
    | .lt => a :: rest (b :: bs)
    | .eq => a :: rest bs
    | .gt => b :: mergeHead a rest bs

/-- Two ascending lists as one; an element of both stands once. -/
def merge : List α → List α → List α
  | [], bs => bs
  | a :: as, [] => a :: as
  | a :: as, b :: bs => mergeHead a (merge as) (b :: bs)

/-- Merging behind a head keeps the elements of both lists, if merging with the rest does. -/
theorem mem_mergeHead [LawfulEqOrd α] {a x : α} {as bs : List α} {rest : List α → List α}
    (h : ∀ cs, x ∈ rest cs ↔ x ∈ as ∨ x ∈ cs) :
    x ∈ mergeHead a rest bs ↔ x ∈ a :: as ∨ x ∈ bs := by
  induction bs with
  | nil => simp [mergeHead, h]
  | cons b bs ih =>
      unfold mergeHead
      split
      · simp only [List.mem_cons, h, or_assoc]
      · rename_i hab
        have hab : a = b := LawfulEqOrd.eq_of_compare hab
        subst hab
        simp only [List.mem_cons, h]
        constructor
        · rintro (h | h | h) <;> simp [h]
        · rintro ((h | h) | h | h) <;> simp [h]
      · rw [List.mem_cons, ih]
        simp only [List.mem_cons]
        constructor
        · rintro (h | (h | h) | h) <;> simp [h]
        · rintro ((h | h) | h | h) <;> simp [h]

/-- A merge has the elements of both lists. -/
theorem mem_merge [LawfulEqOrd α] {x : α} {as bs : List α} :
    x ∈ merge as bs ↔ x ∈ as ∨ x ∈ bs := by
  induction as generalizing bs with
  | nil => simp [merge]
  | cons a as ih =>
      cases bs with
      | nil => simp [merge]
      | cons b bs =>
          rw [merge]
          exact mem_mergeHead fun cs => ih

/-- Merging behind a head is sorted, if the head comes first and merging with the rest is sorted. -/
theorem ascending_mergeHead [TransOrd α] [LawfulEqOrd α] {a : α} {as bs : List α}
    (ha : ∀ x ∈ as, compare a x = .lt) (hbs : bs.Pairwise fun a b => compare a b = .lt)
    (h : ∀ cs : List α, (cs.Pairwise fun a b => compare a b = .lt) →
      (merge as cs).Pairwise fun a b => compare a b = .lt) :
    (mergeHead a (merge as) bs).Pairwise fun a b => compare a b = .lt := by
  induction bs with
  | nil =>
      refine List.pairwise_cons.mpr ⟨fun x hx => ?_, h [] .nil⟩
      rcases mem_merge.mp hx with hx | hx
      · exact ha x hx
      · simp at hx
  | cons b bs ih =>
      obtain ⟨hb, hrest⟩ := List.pairwise_cons.mp hbs
      unfold mergeHead
      split
      · rename_i hab
        refine List.pairwise_cons.mpr ⟨fun x hx => ?_, h _ hbs⟩
        rcases mem_merge.mp hx with hx | hx
        · exact ha x hx
        · rcases List.mem_cons.mp hx with rfl | hx
          · exact hab
          · exact TransCmp.lt_trans hab (hb x hx)
      · rename_i hab
        have hab : a = b := LawfulEqOrd.eq_of_compare hab
        subst hab
        refine List.pairwise_cons.mpr ⟨fun x hx => ?_, h _ hrest⟩
        rcases mem_merge.mp hx with hx | hx
        · exact ha x hx
        · exact hb x hx
      · rename_i hab
        have hba : compare b a = .lt := OrientedCmp.lt_of_gt hab
        refine List.pairwise_cons.mpr ⟨fun x hx => ?_, ih hrest⟩
        rcases (mem_mergeHead fun cs => mem_merge).mp hx with hx | hx
        · rcases List.mem_cons.mp hx with rfl | hx
          · exact hba
          · exact TransCmp.lt_trans hba (ha x hx)
        · exact hb x hx

/-- Sorted lists have a sorted merge. -/
theorem ascending_merge [TransOrd α] [LawfulEqOrd α] {as bs : List α}
    (has : as.Pairwise fun a b => compare a b = .lt)
    (hbs : bs.Pairwise fun a b => compare a b = .lt) :
    (merge as bs).Pairwise fun a b => compare a b = .lt := by
  induction as generalizing bs with
  | nil => simpa [merge] using hbs
  | cons a as ih =>
      cases bs with
      | nil => rwa [merge]
      | cons b bs =>
          obtain ⟨ha, has⟩ := List.pairwise_cons.mp has
          rw [merge]
          exact ascending_mergeHead ha hbs fun cs hcs => ih has hcs

/-- The elements of either set. -/
def union [TransOrd α] [LawfulEqOrd α] (s t : FactSet α) : FactSet α :=
  ⟨merge s.toList t.toList, ascending_merge s.ascending t.ascending⟩

/-- A union has the elements of both sets. -/
theorem mem_union [TransOrd α] [LawfulEqOrd α] {s t : FactSet α} {x : α} :
    x ∈ s.union t ↔ x ∈ s ∨ x ∈ t := mem_merge

/-- The set with the elements of a list added. -/
def insertAll [TransOrd α] [LawfulEqOrd α] (s : FactSet α) (as : List α) : FactSet α :=
  s.union (ofList as)

/-- The elements that pass a test. -/
def filter (keep : α → Bool) (s : FactSet α) : FactSet α :=
  ⟨s.toList.filter keep, s.ascending.filter keep⟩

/-- A filtered set has the elements that pass the test. -/
theorem mem_filter {keep : α → Bool} {s : FactSet α} {x : α} :
    x ∈ s.filter keep ↔ x ∈ s ∧ keep x := List.mem_filter

/-- Whether a set has an element. -/
def contains [DecidableEq α] (s : FactSet α) (a : α) : Bool := s.toList.elem a

/-- The elements of the first set that are not in the second. -/
def difference [DecidableEq α] (s t : FactSet α) : FactSet α := s.filter fun a => !t.contains a

/-- Whether all elements of the first set are in the second. -/
def subset [DecidableEq α] (s t : FactSet α) : Bool := s.toList.all t.contains

/-- Number of elements. -/
def size (s : FactSet α) : Nat := s.toList.length

/-- The elements of any of the sets of a list. -/
def unions [TransOrd α] [LawfulEqOrd α] (ss : List (FactSet α)) : FactSet α :=
  ss.foldr union empty

/-- The union of a list of sets has the elements of each. -/
theorem mem_unions [TransOrd α] [LawfulEqOrd α] {ss : List (FactSet α)} {x : α} :
    x ∈ unions ss ↔ ∃ s ∈ ss, x ∈ s := by
  induction ss with
  | nil => simp [unions, empty, mem_def]
  | cons s ss ih =>
      have h : x ∈ s.union (unions ss) ↔ x ∈ s ∨ ∃ t ∈ ss, x ∈ t := by rw [mem_union, ih]
      simpa [unions] using h

end FactSet

/-- A variable at a place: a definition of it there, or a use of it. -/
structure Fact where
  site : Nat
  name : String
deriving DecidableEq

namespace Fact

instance : Ord Fact := ⟨compareLex (compareOn site) (compareOn name)⟩

instance : TransOrd Fact :=
  inferInstanceAs (TransCmp (compareLex (compareOn site) (compareOn name)))

instance : LawfulEqOrd Fact where
  eq_of_compare := by
    rintro ⟨a, b⟩ ⟨c, d⟩ h
    obtain ⟨hsite, hname⟩ := compareLex_eq_eq.mp h
    have hac : a = c := LawfulEqOrd.eq_of_compare hsite
    have hbd : b = d := LawfulEqOrd.eq_of_compare hname
    rw [hac, hbd]

/-- A fact in text. -/
def render (f : Fact) : String := f.name ++ "@#" ++ toString f.site

end Fact

/-- The facts of a method. -/
abbrev Facts := FactSet Fact

namespace FactSet

/-- The facts about a name. -/
def named (s : Facts) (name : String) : List Fact := s.toList.filter fun f => f.name == name

/-- The names that a set has facts about. -/
def names (s : Facts) : FactSet String := ofList (s.toList.map Fact.name)

/-- The facts about names outside a list. -/
def withoutNames (s : Facts) (names : List String) : Facts :=
  s.filter fun f => !names.contains f.name

/-- A set of facts in text. -/
def render (s : Facts) : String :=
  "\x7b" ++ String.intercalate ", " (s.toList.map Fact.render) ++ "\x7d"

end FactSet

end SharpMutants
