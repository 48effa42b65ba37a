import SharpMutants.Output.Job
import SharpMutants.Proofs.Check.Returns
import SharpMutants.Proofs.Neighbours
import SharpMutants.Proofs.Numbering
import SharpMutants.Proofs.Output.Paths

/-!
# Names of folders and files

Whatever a job puts on a disk has the name of an entry (`Path.IsName`): the folder with its
candidates and its working name, the mutants, and the drawings, since no slash stands in the
names of a source (`Arena.IsNamed.slash_not_mem`).  Mutants, drawings and the report have
different names, and mutants with different numbers have (`mutantFile_injective`).
-/

namespace SharpMutants

open SharpMutants.Path (IsName)

namespace Folder

variable {n name : Text}

/-- A name with more characters that are no slash is a name. -/
theorem isName_append {n more : Text} (hn : IsName n) (hmore : '/' ∉ more) :
    IsName (n ++ more) where
  ne_nil := List.append_ne_nil_of_left_ne_nil hn.ne_nil more
  slash := by
    rw [List.mem_append, not_or]
    exact ⟨hn.slash, hmore⟩
  ne_dot h := by
    rcases List.append_eq_singleton_iff.mp h with ⟨hnil, -⟩ | ⟨hdot, -⟩
    · exact hn.ne_nil hnil
    · exact hn.ne_dot hdot
  ne_dots h := by
    obtain ⟨c, n, rfl⟩ := List.exists_cons_of_ne_nil hn.ne_nil
    obtain ⟨hfirst, hrest⟩ := List.cons.inj h
    subst hfirst
    rcases List.append_eq_singleton_iff.mp hrest with ⟨rfl, -⟩ | ⟨rfl, -⟩
    · exact hn.ne_dot rfl
    · exact hn.ne_dots rfl

/-- No digit is a slash. -/
theorem slash_not_mem_toDigits (k : Nat) : '/' ∉ Nat.toDigits 10 k := fun h => by
  have hdigit := Nat.isDigit_of_mem_toDigits (by decide) (by decide) h
  revert hdigit
  decide

/-- A padded number has no slash. -/
theorem slash_not_mem_padded (width k : Nat) : '/' ∉ Moment.padded width k := by
  rw [Moment.padded, List.mem_append, not_or]
  refine ⟨fun h => ?_, slash_not_mem_toDigits k⟩
  have hzero := List.eq_of_mem_replicate h
  revert hzero
  decide

/-- The text of a year has no slash. -/
theorem slash_not_mem_yearText (year : Int) : '/' ∉ Moment.yearText year := by
  have hpadded := slash_not_mem_padded 4 year.natAbs
  rw [Moment.yearText]
  split
  · exact List.not_mem_cons_of_ne_of_not_mem (by decide) hpadded
  · split
    · exact hpadded
    · exact List.not_mem_cons_of_ne_of_not_mem (by decide) hpadded

/-- The digits of a moment have no slash. -/
theorem slash_not_mem_digits (t : Moment) : '/' ∉ t.digits := by
  simp only [Moment.digits, List.mem_append, not_or]
  exact ⟨⟨⟨⟨⟨slash_not_mem_yearText t.year, slash_not_mem_padded 2 _⟩, slash_not_mem_padded 2 _⟩,
    slash_not_mem_padded 2 _⟩, slash_not_mem_padded 2 _⟩, slash_not_mem_padded 2 _⟩

/-- The folder of a moment has a name. -/
theorem isName_nameFor (t : Moment) : IsName (nameFor t) :=
  isName_append ⟨by decide, by decide, by decide, by decide⟩ (slash_not_mem_digits t)

/-- The folder that is being filled has a name. -/
theorem isName_working (hn : IsName n) : IsName (n ++ workingSuffix) :=
  isName_append hn (by decide)

/-- The names to try are names. -/
theorem isName_candidate (hname : IsName name) (h : n ∈ candidates name) : IsName n := by
  rw [candidates, List.mem_cons, List.mem_map] at h
  rcases h with rfl | ⟨k, -, rfl⟩
  · exact hname
  · exact isName_append hname
      (List.not_mem_cons_of_ne_of_not_mem (by decide) (slash_not_mem_toDigits k))

/-- The file of a mutant has a name. -/
theorem isName_mutantFile (i : Nat) : IsName (mutantFile i) :=
  isName_append (isName_append ⟨by decide, by decide, by decide, by decide⟩
    (slash_not_mem_toDigits i)) (by decide)

/-- **Mutants have files of their own.** -/
theorem mutantFile_injective : Function.Injective mutantFile := by
  intro i j h
  have hdigits : Nat.toDigits 10 i = Nat.toDigits 10 j :=
    List.append_cancel_left (List.append_cancel_right h)
  calc
    i = Nat.ofDigitChars 10 (Nat.toDigits 10 i) 0 := Nat.ofDigitChars_ten_toDigits.symm
    _ = Nat.ofDigitChars 10 (Nat.toDigits 10 j) 0 := by rw [hdigits]
    _ = j := Nat.ofDigitChars_ten_toDigits

end Folder

/-! ## Names of a source -/

/-- A name of the language has no slash. -/
theorem Lexeme.WellSpelled.slash_not_mem {text : Text} (h : (Lexeme.name text).WellSpelled) :
    '/' ∉ text :=
  fun hslash => Bool.false_ne_true (h.identifier_chars '/' hslash)

/-- The words of a conforming node are well spelled. -/
theorem Conforms.wellSpelled {s : Symbol} {t : Tree} (h : Conforms s t) {l : Lexeme}
    (hl : ∀ ss : List Symbol, l ∈ Part.lexemes (t.kind.phrase ss)) : l.WellSpelled := by
  obtain @⟨_, d, ss, cs, rule, spelled, -⟩ := h
  exact spelled l (hl ss)

/-- A method of an arena has a name in a class with a name. -/
structure Arena.IsNamed (a : Arena) (m : Nat) (className name : String) : Prop where
  outer : a.enclosingClass? m = some className
  own : ∃ ms type, a.kind? m = some (.methodDecl name ms type)
  outerSpelled : (Lexeme.name className.toList).WellSpelled
  ownSpelled : (Lexeme.name name.toList).WellSpelled

/-- **Every method has a name in a class**: the node around it is a class. -/
theorem Tree.Grammatical.exists_isNamed {t : Tree} (h : t.Grammatical) {m : Nat}
    (hm : m ∈ t.methods) : ∃ className name, t.arena.IsNamed m className name := by
  obtain ⟨s, hs, hmethod⟩ := Tree.mem_methods.mp hm
  obtain ⟨_, hconforms⟩ := h.of_mem_subtrees (List.mem_of_getElem? hs)
  obtain ⟨name, ms, type, hkind⟩ : ∃ name ms type, s.kind = .methodDecl name ms type := by
    revert hmethod
    cases s.kind with
    | methodDecl name ms type => exact fun _ => ⟨name, ms, type, rfl⟩
    | _ => nofun
  rcases Arena.parent?_arena hs with ⟨hzero, -⟩ | ⟨q, d, ls, rs, hparent, hchild⟩
  · exact absurd hzero (h.ne_zero_of_mem_methods hm)
  · obtain ⟨_, haround⟩ := h.of_mem_subtrees (List.mem_of_getElem? hchild.parent)
    rcases haround.classes_have_members with ⟨className, cms, hclass, -⟩ | ⟨-, hnone⟩
    · refine ⟨className, name, ?_, ⟨ms, type, by rw [Arena.kind?_arena hs, hkind]⟩,
        haround.wellSpelled fun _ => ?_, hconforms.wellSpelled fun _ => ?_⟩
      · obtain ⟨n, hsize⟩ : ∃ n, t.arena.size = n + 1 :=
          Nat.exists_eq_succ_of_ne_zero (Arena.size_arena t ▸ (Steps.size_pos t).ne')
        rw [Arena.enclosingClass?, Arena.ancestors, hsize, Arena.ancestorsWithin, hparent]
        change List.findSome? _ (q :: _) = _
        rw [List.findSome?_cons, Arena.kind?_arena hchild.parent, hclass]
      · rw [hclass, Kind.phrase, Part.lexemes_append, List.mem_append]
        exact .inr (List.mem_cons_of_mem _ List.mem_cons_self)
      · rw [hkind, Kind.phrase, Part.lexemes_append, List.mem_append]
        exact .inr (List.mem_cons_of_mem _ List.mem_cons_self)
    · rw [hnone s (List.mem_append_right ls List.mem_cons_self)] at hmethod
      cases hmethod

namespace Arena.IsNamed

variable {a : Arena} {m k : Nat} {className name className' name' : String}

/-- The qualified name of a method has a dot between the class and the method. -/
theorem qualifiedName_eq (h : a.IsNamed m className name) :
    (a.qualifiedName m).toList = className.toList ++ '.' :: name.toList := by
  obtain ⟨ms, type, hown⟩ := h.own
  rw [qualifiedName, h.outer, hown]
  simp

/-- **Methods with the same qualified name** have the same name in classes of the same name. -/
theorem qualifiedName_eq_iff (h : a.IsNamed m className name) (h' : a.IsNamed k className' name') :
    a.qualifiedName m = a.qualifiedName k ↔ className = className' ∧ name = name' := by
  rw [← String.toList_inj, h.qualifiedName_eq, h'.qualifiedName_eq,
    List.append_cons_inj_of_notMem h.outerSpelled.identifier h.ownSpelled.identifier,
    String.toList_inj, String.toList_inj]
  simp

/-- The qualified name of a method has no slash. -/
theorem slash_not_mem (h : a.IsNamed m className name) : '/' ∉ (a.qualifiedName m).toList := by
  rw [h.qualifiedName_eq, List.mem_append, not_or]
  exact ⟨h.outerSpelled.slash_not_mem,
    List.not_mem_cons_of_ne_of_not_mem (by decide) h.ownSpelled.slash_not_mem⟩

end Arena.IsNamed

end SharpMutants
