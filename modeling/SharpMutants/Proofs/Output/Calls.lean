import Mathlib.Data.List.Basic
import Mathlib.Data.List.Induction
import SharpMutants.Proofs.Output.Disks

/-!
# Calls on a disk

What each call needs and does.  A path can be walked if its steps lead from directory to
directory (`Disk.Leads`); then the entry of a name joined to it is the entry at its location.
A call that goes through changes the disk at the location of its path: `createDirectory_eq_ok`,
`write_join`, `removeTree_join` and `rename_join` say how.  Making the directories on the way to
a path makes directories where the path passes, and nothing else; if it goes through, the path
can be walked (`createDirectories_made`).
-/

namespace SharpMutants

/-- A computation that goes on is successful if both parts are. -/
theorem bind_eq_ok {ε α β : Type} {x : Except ε α} {f : α → Except ε β} {b : β} :
    x >>= f = .ok b ↔ ∃ a, x = .ok a ∧ f a = .ok b := by
  cases x with
  | error e => exact ⟨nofun, nofun⟩
  | ok a => exact ⟨fun h => ⟨a, rfl, h⟩, fun ⟨_, ha, h⟩ => Except.ok.inj ha ▸ h⟩

namespace Disk

open SharpMutants.Path (IsName Passes)

variable {d d' : Disk} {p q : Path} {n : Text} {l l' : Location} {ss : List Text} {w : Place}

/-! ## Walking -/

/-- A step leads from a location to a directory. -/
def Opens (d : Disk) (l : Location) (n : Text) : Prop :=
  n = ['.'] ∨ n = ['.', '.'] ∨ n.width ≤ Path.nameLimit ∧ d.entryAt? (l ++ [n]) = some .directory

/-- Steps lead from the top from directory to directory. -/
def Leads (d : Disk) (ss : List Text) : Prop :=
  ss.foldlM d.step [] = .ok (Location.follow [] ss)

/-- A path that a file system takes. -/
structure Fits (p : Path) : Prop where
  null : '\x00' ∉ p
  width : p.width ≤ Path.widthLimit

/-- What a file system takes with more behind it, it takes. -/
theorem Fits.of_append {more : Text} (h : Fits (p ++ more)) : Fits p where
  null hp := h.null (List.mem_append_left more hp)
  width := Nat.le_trans (Nat.le_add_right _ _) (Text.width_append p more ▸ h.width)

/-- Looking for a member is successful if its name is not too long, and finds the entry. -/
theorem member?_eq_ok {e : Option Entry} :
    d.member? l n = .ok e ↔ n.width ≤ Path.nameLimit ∧ d.entryAt? (l ++ [n]) = e := by
  rw [member?]
  split
  · exact ⟨nofun, fun h => absurd h.1 (Nat.not_le.mpr ‹_›)⟩
  · rw [Except.ok.injEq, and_iff_right (Nat.not_lt.mp ‹_›)]

theorem step_eq_ok : d.step l n = .ok l' ↔ d.Opens l n ∧ l' = l.go n := by
  rw [Opens, Location.go, step]
  by_cases hdot : n = ['.']
  · simp [hdot, pure, Except.pure, eq_comm]
  by_cases hdots : n = ['.', '.']
  · simp [hdots, pure, Except.pure, eq_comm]
  rw [if_neg hdot, if_neg hdots, if_neg hdot, if_neg hdots, or_iff_right hdot, or_iff_right hdots,
    ← member?_eq_ok]
  simp only [bind_eq_ok]
  constructor
  · rintro ⟨e, he, h⟩
    split at h
    · exact ⟨he, (Except.ok.inj h).symm⟩
    · cases h
    · cases h
  · rintro ⟨he, rfl⟩
    exact ⟨_, he, rfl⟩

/-- Successful steps lead where they say. -/
theorem foldlM_step (h : ss.foldlM d.step l = .ok l') : l' = l.follow ss := by
  induction ss generalizing l with
  | nil => exact (Except.ok.inj h).symm
  | cons s ss ih =>
      rw [List.foldlM_cons, bind_eq_ok] at h
      obtain ⟨next, hstep, hrest⟩ := h
      rw [ih hrest, (step_eq_ok.mp hstep).2]
      rfl

theorem leads_nil (d : Disk) : d.Leads [] := rfl

theorem leads_append : d.Leads (ss ++ [n]) ↔ d.Leads ss ∧ d.Opens (Location.follow [] ss) n := by
  have hfollow : Location.follow [] (ss ++ [n]) = (Location.follow [] ss).go n :=
    Path.follow_append [] ss [n]
  rw [Leads, List.foldlM_append, bind_eq_ok, Leads, hfollow]
  constructor
  · rintro ⟨l, hl, h⟩
    obtain rfl := foldlM_step hl
    rw [List.foldlM_cons, bind_eq_ok] at h
    obtain ⟨l', hl', -⟩ := h
    exact ⟨hl, (step_eq_ok.mp hl').1⟩
  · rintro ⟨hl, h⟩
    refine ⟨_, hl, ?_⟩
    rw [List.foldlM_cons, bind_eq_ok]
    exact ⟨_, step_eq_ok.mpr ⟨h, rfl⟩, rfl⟩

/-- Steps still lead when there are more directories. -/
theorem Leads.mono (h : d.Leads ss)
    (hd : ∀ l, d.entryAt? l = some .directory → d'.entryAt? l = some .directory) : d'.Leads ss := by
  induction ss using List.reverseRecOn with
  | nil => exact leads_nil d'
  | append_singleton ss n ih =>
      rw [leads_append] at h ⊢
      exact ⟨ih h.1, h.2.imp_right (Or.imp_right (And.imp_right (hd _)))⟩

/-- Walking ends at a directory. -/
theorem Leads.isDirectory (h : d.Leads ss) (hd : d.Sound) :
    d.entryAt? (Location.follow [] ss) = some .directory := by
  induction ss using List.reverseRecOn with
  | nil => exact entryAt?_nil d
  | append_singleton ss n ih =>
      rw [leads_append] at h
      rw [Path.follow_append]
      have hthere := ih h.1
      change d.entryAt? ((Location.follow [] ss).go n) = some .directory
      rw [Location.go]
      split
      · exact hthere
      · rename_i hdot
        split
        · rcases List.eq_nil_or_concat' (Location.follow [] ss) with htop | ⟨above, m, hbelow⟩
          · rw [htop]
            exact entryAt?_nil d
          · rw [hbelow, List.dropLast_concat]
            refine hd above m ?_
            rw [← hbelow, hthere]
            exact Option.some_ne_none _
        · rename_i hdots
          exact ((h.2.resolve_left hdot).resolve_left hdots).2

/-- A path that is located fits. -/
theorem fits_of_locate (h : d.locate p = .ok w) : Fits p := by
  rw [locate] at h
  split at h
  · cases h
  · rename_i hnull
    change (if Path.widthLimit < p.width then _ else _) = _ at h
    split at h
    · cases h
    · rename_i hwidth
      exact ⟨mt List.contains_iff_mem.mpr hnull, Nat.not_lt.mp hwidth⟩

/-- A path that fits is located by its steps, all but the last of which must lead. -/
theorem locate_of_fits (h : Fits p) : d.locate p =
    match p.steps.getLast? with
    | none => if p.isEmpty then .error .notFound else .ok ⟨[], none, true⟩
    | some last => do
      let directory ← p.steps.dropLast.foldlM d.step []
      if last = ['.'] ∨ last = ['.', '.'] then
        return ⟨← d.step directory last, none, p.endsInSlash⟩
      else return ⟨directory, some last, p.endsInSlash⟩ := by
  rw [locate, if_neg (mt List.contains_iff_mem.mp h.null), if_neg (Nat.not_lt.mpr h.width)]
  rfl

/-- **A path whose last step is a name** is located if it fits and the steps before lead. -/
theorem locate_eq_ok {front : List Text} (hsteps : p.steps = front ++ [n]) (hn : IsName n) :
    d.locate p = .ok w ↔
      Fits p ∧ d.Leads front ∧ w = ⟨Location.follow [] front, some n, p.endsInSlash⟩ := by
  have hlast : ¬(n = ['.'] ∨ n = ['.', '.']) := not_or.mpr ⟨hn.ne_dot, hn.ne_dots⟩
  rw [← and_iff_right_of_imp (a := Fits p) (fits_of_locate (d := d) (w := w))]
  refine and_congr_right fun hfits => ?_
  rw [locate_of_fits hfits, hsteps, List.getLast?_concat, List.dropLast_concat]
  simp only [bind_eq_ok, if_neg hlast]
  constructor
  · rintro ⟨l, hl, h⟩
    obtain rfl := foldlM_step hl
    exact ⟨hl, (Except.ok.inj h).symm⟩
  · rintro ⟨hl, rfl⟩
    exact ⟨_, hl, rfl⟩

/-- A walk ends at a place with a name, or its last step leads to a directory too. -/
theorem locate_cases (h : d.locate p = .ok w) :
    (w.name = none ∧ d.Leads p.steps) ∨ ∃ front n, p.steps = front ++ [n] ∧ IsName n := by
  rcases List.eq_nil_or_concat' p.steps with hsteps | ⟨front, n, hsteps⟩
  · rw [locate_of_fits (fits_of_locate h), hsteps, List.getLast?_nil] at h
    refine .inl ⟨?_, hsteps ▸ leads_nil d⟩
    change (if p.isEmpty = true then _ else _) = _ at h
    split at h
    · cases h
    · rw [← Except.ok.inj h]
  · by_cases hn : n = ['.'] ∨ n = ['.', '.']
    · rw [locate_of_fits (fits_of_locate h), hsteps, List.getLast?_concat,
        List.dropLast_concat] at h
      simp only [bind_eq_ok, if_pos hn] at h
      obtain ⟨l, hl, l', hstep, hw⟩ := h
      obtain rfl := foldlM_step hl
      rw [← Except.ok.inj hw, hsteps, leads_append]
      exact .inl ⟨rfl, hl, (step_eq_ok.mp hstep).1⟩
    · rw [not_or] at hn
      have hstep : n ≠ [] ∧ '/' ∉ n := Path.step_ne_nil (p := p) (by simp [hsteps])
      exact .inr ⟨front, n, hsteps, ⟨hstep.1, hstep.2, hn.1, hn.2⟩⟩

/-! ## The calls -/

section Joined

variable (hn : IsName n)
include hn

/-- A name under a path is located if the path leads. -/
theorem locate_join : d.locate (p.join n) = .ok w ↔
    Fits (p.join n) ∧ d.Leads p.steps ∧ w = ⟨p.location, some n, false⟩ := by
  rw [locate_eq_ok (Path.steps_join hn p) hn, Path.endsInSlash_join hn]
  rfl

/-- What a name leads to in a directory that can be reached. -/
theorem reach_join (hfits : Fits (p.join n)) (hp : d.Leads p.steps)
    (hwidth : n.width ≤ Path.nameLimit) :
    d.reach (p.join n) = .ok (d.entryAt? (p.location ++ [n])) := by
  rw [reach, (locate_join hn).mpr ⟨hfits, hp, rfl⟩]
  change (d.member? p.location n >>= _) = _
  rw [member?_eq_ok.mpr ⟨hwidth, rfl⟩]
  cases d.entryAt? (p.location ++ [n]) with
  | none => rfl
  | some e => cases e <;> rfl

/-- A name at which nothing is present has no entry, if a look can find out. -/
theorem entryAt?_of_not_isPresent (hfits : Fits (p.join n)) (hp : d.Leads p.steps)
    (hwidth : n.width ≤ Path.nameLimit) (h : d.isPresent (p.join n) = false) :
    d.entryAt? (p.location ++ [n]) = none := by
  rw [isPresent, reach_join hn hfits hp hwidth] at h
  cases he : d.entryAt? (p.location ++ [n]) with
  | none => rfl
  | some e =>
      rw [he] at h
      cases h

/-- What is found under a name in a directory has an entry there. -/
theorem entryAt?_of_isPresent (h : d.isPresent (p.join n) = true) :
    d.entryAt? (p.location ++ [n]) ≠ none := by
  rw [isPresent] at h
  split at h
  · rename_i e hreach
    rw [reach, bind_eq_ok] at hreach
    obtain ⟨w, hw, hreach⟩ := hreach
    obtain ⟨hfits, hleads, rfl⟩ := (locate_join hn).mp hw
    obtain ⟨e', he', hreach⟩ := bind_eq_ok.mp hreach
    obtain ⟨hwidth, hentry⟩ := member?_eq_ok.mp he'
    change d.entryAt? (p.location ++ [n]) = e' at hentry
    rw [hentry]
    intro hnone
    rw [hnone] at hreach
    cases hreach
  · cases h

/-- A write puts a text at its name. -/
theorem write_join {content : Text} (h : d.write (p.join n) content = .ok d') :
    d' = d.put (p.location ++ [n]) (.text content) := by
  rw [write, bind_eq_ok] at h
  obtain ⟨w, hw, h⟩ := h
  obtain ⟨-, -, rfl⟩ := (locate_join hn).mp hw
  change (d.member? p.location n >>= _) = _ at h
  obtain ⟨e, -, h⟩ := bind_eq_ok.mp h
  split at h
  · cases h
  · exact (Except.ok.inj h).symm

/-- A removal takes away what is at its name, and was possible. -/
theorem removeTree_join (h : d.removeTree (p.join n) = .ok d') :
    Fits (p.join n) ∧ d.Leads p.steps ∧ n.width ≤ Path.nameLimit ∧
      d' = d.without (p.location ++ [n]) := by
  rw [removeTree, bind_eq_ok] at h
  obtain ⟨w, hw, h⟩ := h
  obtain ⟨hfits, hleads, rfl⟩ := (locate_join hn).mp hw
  obtain ⟨e, he, h⟩ := bind_eq_ok.mp h
  refine ⟨hfits, hleads, (member?_eq_ok.mp he).1, ?_⟩
  split at h
  · cases h
  · exact (Except.ok.inj h).symm
  · cases h

/-- A directory can be removed. -/
theorem removeTree_join_of_directory (hfits : Fits (p.join n)) (hp : d.Leads p.steps)
    (hwidth : n.width ≤ Path.nameLimit) (h : d.entryAt? (p.location ++ [n]) = some .directory) :
    d.removeTree (p.join n) = .ok (d.without (p.location ++ [n])) := by
  rw [removeTree, (locate_join hn).mpr ⟨hfits, hp, rfl⟩]
  change (d.member? p.location n >>= _) = _
  rw [member?_eq_ok.mpr ⟨hwidth, h⟩]
  rfl

/-- **A directory that takes another name** needs that name to be free, or an empty directory to
stand there. -/
theorem rename_join {m : Text} (hm : IsName m) (hne : m ≠ n)
    (h : d.rename (p.join m) (p.join n) = .ok d')
    (hsource : d.entryAt? (p.location ++ [m]) = some .directory) :
    d' = d.move (p.location ++ [m]) (p.location ++ [n]) ∧
      (d.entryAt? (p.location ++ [n]) = none ∨
        d.entryAt? (p.location ++ [n]) = some .directory ∧ d.isBare (p.location ++ [n]) = true) := by
  rw [rename, bind_eq_ok] at h
  obtain ⟨w, hw, h⟩ := h
  obtain ⟨-, -, rfl⟩ := (locate_join hm).mp hw
  obtain ⟨w, hw, h⟩ := bind_eq_ok.mp h
  obtain ⟨-, -, rfl⟩ := (locate_join hn).mp hw
  change (d.member? p.location m >>= _) = _ at h
  obtain ⟨e, he, h⟩ := bind_eq_ok.mp h
  obtain rfl : e = some .directory := (member?_eq_ok.mp he).2.symm.trans hsource
  change (d.member? p.location n >>= _) = _ at h
  obtain ⟨e, he, h⟩ := bind_eq_ok.mp h
  rw [(member?_eq_ok.mp he).2]
  change d.moveDirectory (p.location ++ [m]) (p.location ++ [n]) e = .ok d' at h
  unfold moveDirectory at h
  split at h
  · split at h
    · cases h
    · exact ⟨(Except.ok.inj h).symm, .inl rfl⟩
  · split at h
    · rename_i hsame
      exact absurd (List.singleton_inj.mp (List.append_cancel_left (beq_iff_eq.mp hsame))) hne
    · split at h
      · cases h
      · split at h
        · exact ⟨(Except.ok.inj h).symm, .inr ⟨rfl, ‹_›⟩⟩
        · cases h
  · cases h

end Joined

/-- **Making a directory** needs the way to it, and puts it where nothing was. -/
theorem createDirectory_eq_ok : d.createDirectory p = .ok d' ↔
    ∃ front n, p.steps = front ++ [n] ∧ IsName n ∧ Fits p ∧ d.Leads front ∧
      n.width ≤ Path.nameLimit ∧ d.entryAt? (Location.follow [] front ++ [n]) = none ∧
      d' = d.put (Location.follow [] front ++ [n]) .directory := by
  rw [createDirectory, bind_eq_ok]
  constructor
  · rintro ⟨w, hw, h⟩
    obtain ⟨e, he, h⟩ := bind_eq_ok.mp h
    split at h
    · cases h
    · rcases locate_cases hw with ⟨hname, -⟩ | ⟨front, n, hsteps, hn⟩
      · rw [lookUp, hname] at he
        cases he
      · obtain ⟨hfits, hfront, rfl⟩ := (locate_eq_ok hsteps hn).mp hw
        obtain ⟨hwidth, hnone⟩ := member?_eq_ok.mp he
        exact ⟨front, n, hsteps, hn, hfits, hfront, hwidth, hnone, (Except.ok.inj h).symm⟩
  · rintro ⟨front, n, hsteps, hn, hfits, hfront, hwidth, hnone, rfl⟩
    refine ⟨_, (locate_eq_ok hsteps hn).mpr ⟨hfits, hfront, rfl⟩, ?_⟩
    exact bind_eq_ok.mpr ⟨none, member?_eq_ok.mpr ⟨hwidth, hnone⟩, rfl⟩

/-! ## Directories on the way to a path -/

/-- **A disk with more directories**, made where a path passes and nothing was. -/
def Grown (p : Path) (d d' : Disk) : Prop :=
  ∀ l, d'.entryAt? l = d.entryAt? l ∨
    (p.Passes l ∧ d.entryAt? l = none ∧ d'.entryAt? l = some .directory)

/-- An empty directory has nothing below it. -/
theorem entryAt?_of_isBare {more : Location} (h : d.isBare l = true) (hmore : more ≠ []) :
    d.entryAt? (l ++ more) = none := by
  have hne : l ++ more ≠ [] := List.append_ne_nil_of_right_ne_nil l hmore
  rw [entryAt?_of_ne_nil d hne, Option.map_eq_none_iff, List.find?_eq_none]
  intro e he heq
  have hbare := List.all_eq_true.mp h e he
  rw [beq_iff_eq.mp heq, within_iff.mpr (List.prefix_append l more)] at hbare
  simp [hmore] at hbare

theorem Grown.refl (p : Path) (d : Disk) : Grown p d d := fun _ => .inl rfl

theorem Grown.trans {d'' : Disk} (h : Grown p d d') (h' : Grown p d' d'') : Grown p d d'' := by
  intro l
  rcases h' l with hsame | ⟨hpass, hnone, hdir⟩
  · rw [hsame]
    exact h l
  · rcases h l with hsame | ⟨-, -, hthere⟩
    · exact .inr ⟨hpass, hsame ▸ hnone, hdir⟩
    · rw [hthere] at hnone
      cases hnone

/-- What was there is still there. -/
theorem Grown.kept {e : Entry} (h : Grown p d d') (hl : d.entryAt? l = some e) :
    d'.entryAt? l = some e := by
  rcases h l with hsame | ⟨-, hnone, -⟩
  · rw [hsame, hl]
  · rw [hl] at hnone
    cases hnone

/-- What is new is a directory where the path passes. -/
theorem Grown.added (h : Grown p d d') (hl : d.entryAt? l = none) :
    d'.entryAt? l = none ∨ p.Passes l ∧ d'.entryAt? l = some .directory := by
  rcases h l with hsame | ⟨hpass, -, hdir⟩
  · exact .inl (hsame.trans hl)
  · exact .inr ⟨hpass, hdir⟩

/-- What is not there was not there. -/
theorem Grown.none (h : Grown p d d') (hl : d'.entryAt? l = none) : d.entryAt? l = none := by
  rcases h l with hsame | ⟨-, hnone, -⟩
  · exact hsame.symm.trans hl
  · exact hnone

/-- A new directory in a directory leaves a disk sound. -/
theorem Sound.put (hd : d.Sound) (hl : d.entryAt? l = some .directory) :
    (d.put (l ++ [n]) .directory).Sound := by
  have hne : l ++ [n] ≠ [] := List.concat_ne_nil n l
  intro above m h
  rw [entryAt?_put d _ hne] at h ⊢
  split
  · rfl
  · split at h
    · rename_i hsame
      rw [(List.append_inj' hsame rfl).1, hl]
    · exact hd above m h

/-- What making directories comes to on the way to a path. -/
structure Made (p q : Path) (d d' : Disk) : Prop where
  grown : Grown p d d'
  sound : d'.Sound
  leads : d'.Leads q.steps

/-- Making one directory makes what it comes to. -/
theorem createDirectory_made (h : d.createDirectory q = .ok d') (hd : d.Sound)
    (hq : p.Passes q.location) : Made p q d d' := by
  obtain ⟨front, n, hsteps, hn, -, hfront, hwidth, hnone, rfl⟩ := createDirectory_eq_ok.mp h
  have hlocation : q.location = Location.follow [] front ++ [n] := by
    rw [Path.location, hsteps, Path.follow_append, ← Path.go_name hn]
    rfl
  have hne : Location.follow [] front ++ [n] ≠ [] := List.concat_ne_nil n _
  have hgrown : Grown p d (d.put (Location.follow [] front ++ [n]) .directory) := by
    intro l
    rw [entryAt?_put d _ hne]
    split
    · rename_i hl
      exact .inr ⟨hl ▸ hlocation ▸ hq, hl ▸ hnone, rfl⟩
    · exact .inl rfl
  refine ⟨hgrown, hd.put (hfront.isDirectory hd), ?_⟩
  rw [hsteps, leads_append]
  refine ⟨hfront.mono fun l => hgrown.kept, .inr (.inr ⟨hwidth, ?_⟩)⟩
  rw [entryAt?_put d _ hne, if_pos rfl]

/-- A path to a directory leads. -/
theorem leads_of_isDirectory (h : d.isDirectory q = true) : d.Leads q.steps := by
  rw [isDirectory] at h
  split at h
  · rename_i hreach
    rw [reach, bind_eq_ok] at hreach
    obtain ⟨w, hw, hreach⟩ := hreach
    obtain ⟨e, he, hreach⟩ := bind_eq_ok.mp hreach
    rcases locate_cases hw with ⟨-, hleads⟩ | ⟨front, n, hsteps, hn⟩
    · exact hleads
    · obtain ⟨-, hfront, rfl⟩ := (locate_eq_ok hsteps hn).mp hw
      obtain ⟨hwidth, hentry⟩ := member?_eq_ok.mp he
      rw [hsteps, leads_append]
      refine ⟨hfront, .inr (.inr ⟨hwidth, ?_⟩)⟩
      rw [hentry]
      split at hreach
      · rfl
      · split at hreach
        · cases hreach
        · exact Except.ok.inj hreach
      · cases hreach
  · cases h

/-- Making a directory, unless it is there, makes what it comes to. -/
theorem ensureDirectory_made (h : d.ensureDirectory q = .ok d') (hd : d.Sound)
    (hq : p.Passes q.location) : Made p q d d' := by
  rw [ensureDirectory] at h
  split at h
  · rename_i hmade
    exact createDirectory_made (Except.ok.inj h ▸ hmade) hd hq
  · split at h
    · rename_i hthere
      obtain rfl := Except.ok.inj h
      exact ⟨.refl p d, hd, leads_of_isDirectory hthere⟩
    · cases h

/-- **Making directories upward** makes them only where the path passes; if it goes through,
the first one can be walked to. -/
theorem createUpward_made {ps : List Path} (hd : d.Sound)
    (hps : ∀ q ∈ ps, p.Passes q.location) :
    Grown p d (d.createUpward ps).2 ∧ (d.createUpward ps).2.Sound ∧
      ∀ q, ps.head? = some q → (d.createUpward ps).1 = .ok () →
        (d.createUpward ps).2.Leads q.steps := by
  induction ps generalizing d with
  | nil => exact ⟨.refl p d, hd, nofun⟩
  | cons q above ih =>
      rw [List.forall_mem_cons] at hps
      have hfail : ∀ e : StorageError, ∀ d₁ : Disk, Grown p d d₁ → d₁.Sound →
          Grown p d d₁ ∧ d₁.Sound ∧ ∀ r, (q :: above).head? = some r →
            (Except.error e : Except StorageError Unit) = .ok () → d₁.Leads r.steps :=
        fun _ _ hgrown hsound => ⟨hgrown, hsound, nofun⟩
      have hmade : ∀ d₁ d₂ : Disk, Grown p d d₁ → Made p q d₁ d₂ →
          Grown p d d₂ ∧ d₂.Sound ∧ ∀ r, (q :: above).head? = some r →
            (Except.ok () : Except StorageError Unit) = .ok () → d₂.Leads r.steps :=
        fun _ _ hgrown hmade => ⟨hgrown.trans hmade.grown, hmade.sound,
          fun r hr _ => Option.some.inj hr ▸ hmade.leads⟩
      rw [createUpward]
      split
      · exact hmade d _ (.refl p d) (ensureDirectory_made ‹_› hd hps.1)
      · obtain ⟨hgrown, hsound, -⟩ := ih hd hps.2
        split
        · rename_i hup
          rw [hup] at hgrown hsound
          exact hfail _ _ hgrown hsound
        · rename_i hup
          rw [hup] at hgrown hsound
          split
          · exact hmade _ _ hgrown (ensureDirectory_made ‹_› hsound hps.1)
          · exact hfail _ _ hgrown hsound
      · exact hfail _ d (.refl p d) hd

/-- **Making the directories on the way** to a path and itself. -/
theorem createDirectories_made (hd : d.Sound) :
    Grown p d (d.createDirectories p).2 ∧ (d.createDirectories p).2.Sound ∧
      ((d.createDirectories p).1 = .ok () → (d.createDirectories p).2.Leads p.steps) := by
  rw [createDirectories]
  split
  · rename_i hempty
    rw [List.isEmpty_iff.mp hempty]
    exact ⟨.refl _ d, hd, fun _ => leads_nil d⟩
  · have hpasses : ∀ q ∈ p :: p.above, p.Passes q.location :=
      List.forall_mem_cons.mpr ⟨Path.passes_location p, fun q => Path.passes_of_mem_above⟩
    obtain ⟨hgrown, hsound, hleads⟩ := createUpward_made hd hpasses
    exact ⟨hgrown, hsound, hleads p rfl⟩

end Disk

end SharpMutants
