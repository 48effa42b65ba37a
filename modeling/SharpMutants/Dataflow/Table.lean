import Std.Data.TreeMap

/-!
# Tables by node

A table gives values to node numbers.  `tabulate` enters the values of a function
for the numbers of a list; `getElem?_tabulate` says that it enters these and no
others.
-/

namespace SharpMutants

/-- Values for node numbers. -/
abbrev Table (α : Type) := Std.TreeMap Nat α

namespace Table

variable {α : Type}

/-- The table of the values of a function at the numbers of a list. -/
def tabulate (ns : List Nat) (f : Nat → α) : Table α :=
  ns.foldl (fun t n => t.insert n (f n)) ∅

/-- Entries that are inserted one after another are found by their key; the others stay as they
were. -/
theorem getElem?_foldl_insert (ns : List Nat) (f : Nat → α) (t : Table α) (n : Nat) :
    (ns.foldl (fun t n => t.insert n (f n)) t)[n]? = if n ∈ ns then some (f n) else t[n]? := by
  induction ns generalizing t with
  | nil => simp
  | cons m ms ih =>
      rw [List.foldl_cons, ih, Std.TreeMap.getElem?_insert]
      by_cases hms : n ∈ ms
      · simp [hms]
      · by_cases hm : m = n
        · subst hm
          simp [hms]
        · simp [hms, hm, Ne.symm hm]

/-- A table of a function over some keys has the values at these keys and nothing else. -/
theorem getElem?_tabulate (ns : List Nat) (f : Nat → α) (n : Nat) :
    (tabulate ns f)[n]? = if n ∈ ns then some (f n) else none := by
  rw [tabulate, getElem?_foldl_insert]
  simp

end Table

end SharpMutants
