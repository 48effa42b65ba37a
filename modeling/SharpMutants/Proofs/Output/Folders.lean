import SharpMutants.Proofs.Output.Names
import SharpMutants.Proofs.Output.Sessions

/-!
# Filling a folder

A folder is filled under its working name, and all that happens to the disk until it is
completed happens within its working location: `Folder.Filling` says that the disk holds the
files written so far there, and otherwise what it held before, without what was left of an
earlier folder.  Beginning a folder establishes this (`create_ends`), writing keeps it
(`write_ends`), and from it a folder is completed (`commit_ends`) or discarded (`run_discard`).

What was there before a folder was begun is compared with what is there after it was given up
(`Spared`).  The directories on the way to the root stay; they are where the path of the root
passes, and so below the root only if that path goes back up.  The name of a folder is the first
that is not taken (`Chosen`), as far as looks at the names before it can tell.
-/

namespace SharpMutants

namespace Disk

variable {d d' before : Disk} {l l' source target : Location} {files : List (Text × Text)}
  {file content : Text}

/-- Two disks have the same entries. -/
def Same (d d' : Disk) : Prop := ∀ l, d'.entryAt? l = d.entryAt? l

theorem Same.refl (d : Disk) : Same d d := fun _ => rfl

/-- **A disk that holds a folder of files**, and otherwise what another disk holds.  Files are
given by name and text; a later one replaces an earlier one. -/
structure Holds (before : Disk) (folder : Location) (files : List (Text × Text)) (d : Disk) :
    Prop where
  directory : d.entryAt? folder = some .directory
  inside : ∀ file, d.entryAt? (folder ++ [file]) = (files.reverse.lookup file).map .text
  deeper : ∀ file step below, d.entryAt? (folder ++ file :: step :: below) = none
  outside : ∀ l, ¬ folder <+: l → d.entryAt? l = before.entryAt? l

/-- Below a location without an entry there is none. -/
theorem Sound.none_below (hd : d.Sound) (h : d.entryAt? l = none) (hl : l <+: l') :
    d.entryAt? l' = none := by
  obtain ⟨below, rfl⟩ := hl
  induction below using List.reverseRecOn with
  | nil => rwa [List.append_nil]
  | append_singleton below n ih =>
      by_contra hne
      rw [← List.append_assoc] at hne
      rw [hd _ n hne] at ih
      cases ih

/-- A new directory where nothing was holds no files. -/
theorem Holds.empty (h : Same before d) (hl : l ≠ [])
    (hclear : ∀ l', l <+: l' → before.entryAt? l' = none) :
    before.Holds l [] (d.put l .directory) := by
  have hbelow : ∀ more : Location, more ≠ [] →
      (d.put l .directory).entryAt? (l ++ more) = none := by
    intro more hmore
    rw [entryAt?_put d _ hl, if_neg (by simpa using hmore), h, hclear _ (List.prefix_append l more)]
  refine ⟨?_, fun file => hbelow [file] (List.cons_ne_nil _ _),
    fun file step below => hbelow _ (List.cons_ne_nil _ _), fun l' hout => ?_⟩
  · rw [entryAt?_put d _ hl, if_pos rfl]
  · have hne : l' ≠ l := fun heq => hout (heq ▸ List.prefix_refl l)
    rw [entryAt?_put d _ hl, if_neg hne, h]

/-- A folder to which a file is written holds it besides. -/
theorem Holds.put (h : before.Holds l files d) :
    before.Holds l (files ++ [(file, content)]) (d.put (l ++ [file]) (.text content)) := by
  have hne : l ++ [file] ≠ [] := List.concat_ne_nil file l
  refine ⟨?_, fun other => ?_, fun other step below => ?_, fun l' hout => ?_⟩
  · rw [entryAt?_put d _ hne, if_neg (by simp), h.directory]
  · rw [entryAt?_put d _ hne, h.inside, List.reverse_append, List.reverse_singleton,
      List.singleton_append, List.lookup_cons]
    by_cases hother : other = file
    · rw [if_pos (by rw [hother]), beq_iff_eq.mpr hother]
      rfl
    · rw [if_neg (by simpa using hother), beq_eq_false_iff_ne.mpr hother]
  · rw [entryAt?_put d _ hne, if_neg (by simp), h.deeper]
  · have hl' : l' ≠ l ++ [file] := fun heq => hout (heq ▸ List.prefix_append l [file])
    rw [entryAt?_put d _ hne, if_neg hl', h.outside l' hout]

/-- A folder that is moved holds its files in its new place. -/
theorem Holds.move (h : before.Holds source files d) (hsource : source ≠ []) (htarget : target ≠ [])
    (hclear : ∀ l, source <+: l → before.entryAt? l = none) :
    before.Holds target files (d.move source target) := by
  have hbelow : ∀ more : Location,
      (d.move source target).entryAt? (target ++ more) = d.entryAt? (source ++ more) := by
    intro more
    rw [entryAt?_move d hsource htarget, if_pos (List.prefix_append target more), List.drop_left]
  refine ⟨?_, fun file => ?_, fun file step below => ?_, fun l hout => ?_⟩
  · have htop := hbelow []
    rw [List.append_nil, List.append_nil] at htop
    rw [htop, h.directory]
  · rw [hbelow, h.inside]
  · rw [hbelow, h.deeper]
  · rw [entryAt?_move d hsource htarget, if_neg hout]
    split
    · rw [hclear l ‹_›]
    · exact h.outside l ‹_›

/-- A folder that is taken away leaves what was before it. -/
theorem Holds.without (h : before.Holds l files d) (hl : l ≠ [])
    (hclear : ∀ l', l <+: l' → before.entryAt? l' = none) : Same before (d.without l) := by
  intro l'
  rw [entryAt?_without d hl]
  split
  · rw [hclear l' ‹_›]
  · exact h.outside l' ‹_›

end Disk

namespace Session

/-- A directory that was made by a call can be removed by a call. -/
def RemovesMade (s : Session) : Prop :=
  ∀ calls p, .createDirectory p ∈ calls → s.fault calls (.removeTree p) = none

end Session

namespace Folder

open Session (Ends RemovesMade)
open Disk (Same Grown Fits)
open SharpMutants.Path (IsName)

variable {root : Path} {n name file content : Text} {before ready : Disk}
  {files : List (Text × Text)} {s₀ s : Session}

/-- Where the folder with a name is filled. -/
def workingAt (root : Path) (n : Text) : Location := root.location ++ [n ++ workingSuffix]

/-- A disk without what was left of an earlier folder with a name. -/
def cleared (root : Path) (n : Text) (ready : Disk) : Disk := ready.without (workingAt root n)

/-- The folder with a name under a root. -/
def named (root : Path) (n : Text) : Folder := ⟨root.join (n ++ workingSuffix), root.join n⟩

theorem workingAt_ne_nil (root : Path) (n : Text) : workingAt root n ≠ [] :=
  List.concat_ne_nil _ _

/-- A cleared disk has no entry where a folder is filled, and the others. -/
theorem entryAt?_cleared (root : Path) (n : Text) (ready : Disk) (l : Location) :
    (cleared root n ready).entryAt? l = if workingAt root n <+: l then none else ready.entryAt? l :=
  Disk.entryAt?_without ready (workingAt_ne_nil root n) l

/-- A cleared disk has nothing where a folder is filled. -/
theorem cleared_eq_none {l : Location} (hl : workingAt root n <+: l) :
    (cleared root n ready).entryAt? l = none := by
  rw [entryAt?_cleared, if_pos hl]

/-- **A name is vacant** under a root: nothing stands there, or a look at it has failed. -/
def Vacant (s₀ : Session) (root : Path) (n : Text) (d : Disk) (s : Session) : Prop :=
  d.entryAt? (root.location ++ [n]) = none ∨ s₀.Failed s (.isPresent (root.join n))

/-- A vacant name stays vacant, whatever is called. -/
theorem Vacant.after (h : Vacant s₀ root n ready s) (c : Call) (d : Disk) :
    Vacant s₀ root n ready (s.after c d) :=
  h.imp_right fun hfailed => hfailed.after c d

/-- **A session in which a folder is being filled**, with the files written so far. -/
structure Filling (s₀ : Session) (root : Path) (n : Text) (ready : Disk)
    (files : List (Text × Text)) (s : Session) : Prop where
  holds : (cleared root n ready).Holds (workingAt root n) files s.disk
  leads : s.disk.Leads root.steps
  fits : Fits (root.join (n ++ workingSuffix))
  width : (n ++ workingSuffix).width ≤ Path.nameLimit
  made : .createDirectory (root.join (n ++ workingSuffix)) ∈ s.calls
  later : s₀.Later s
  removes : s₀.RemovesMade
  vacant : Vacant s₀ root n ready s

/-! ## Writing, discarding, completing -/

/-- A failed call leaves a folder that is being filled as it is. -/
theorem Filling.after (h : Filling s₀ root n ready files s) (c : Call) :
    Filling s₀ root n ready files (s.after c s.disk) :=
  ⟨h.holds, h.leads, h.fits, h.width, List.mem_cons_of_mem c h.made, h.later.after c _, h.removes,
    h.vacant.after c _⟩

/-- A file that is written comes after those written before; else they are as they were. -/
theorem Filling.put_ends {ε : Type} {cause : StorageError → ε} (h : Filling s₀ root n ready files s)
    (hn : IsName n) (hfile : IsName file) :
    Ends s (attempt cause (Storage.write ((named root n).working.join file) content))
      (fun _ s' => Filling s₀ root n ready (files ++ [(file, content)]) s')
      (fun _ s' => Filling s₀ root n ready files s') := by
  refine Session.ends_attempt_change (fun _ => ?_) fun d hd => ?_
  · exact h.after _
  · have hput : d = s.disk.put (workingAt root n ++ [file]) (.text content) := by
      rw [Disk.write_join hfile hd, workingAt, ← Path.location_join (isName_working hn)]
      rfl
    have hdirectory : ∀ l, s.disk.entryAt? l = some .directory →
        d.entryAt? l = some .directory := by
      intro l hl
      have hne : l ≠ workingAt root n ++ [file] := by
        rintro rfl
        rw [h.holds.inside] at hl
        cases hlookup : files.reverse.lookup file with
        | none => rw [hlookup] at hl; cases hl
        | some _ => rw [hlookup] at hl; cases hl
      rw [hput, Disk.entryAt?_put _ _ (List.concat_ne_nil _ _),
        if_neg hne, hl]
    exact ⟨hput ▸ h.holds.put, h.leads.mono hdirectory, h.fits, h.width,
      List.mem_cons_of_mem _ h.made, h.later.after _ _, h.removes, h.vacant.after _ _⟩

/-- Writing a file, whether it goes well or not, leaves a folder that is being filled. -/
theorem write_ends (h : Filling s₀ root n ready files s) (hn : IsName n) (hfile : IsName file) :
    Ends s ((named root n).write file content)
      (fun _ s' => Filling s₀ root n ready (files ++ [(file, content)]) s')
      (fun _ s' => Filling s₀ root n ready files s') := by
  rw [Folder.write, Session.ends_bind]
  exact h.put_ends hn hfile

/-- What is left after a folder that is being filled is discarded. -/
theorem run_discard (h : Filling s₀ root n ready files s) (hn : IsName n) :
    Same (cleared root n ready)
        (((named root n).discard (m := StateM Session)).run s).run.2.disk ∧
      Vacant s₀ root n ready (((named root n).discard (m := StateM Session)).run s).run.2 := by
  let path := (named root n).working
  have hremove : s.disk.removeTree path = .ok (s.disk.without (workingAt root n)) :=
    Disk.removeTree_join_of_directory (isName_working hn) h.fits h.leads h.width h.holds.directory
  have hfault : s.fault s.calls (.removeTree path) = none := by
    rw [h.later.fault]
    exact h.removes s.calls path h.made
  have hrun : ((Session.change (.removeTree path) fun d => d.removeTree path).run s).run =
      (.ok (), s.after (.removeTree path) (s.disk.without (workingAt root n))) :=
    Session.run_change hfault hremove
  have hdiscard : (((named root n).discard (m := StateM Session)).run s).run.2 =
      ((Session.change (.removeTree path) fun d => d.removeTree path).run s).run.2 := rfl
  rw [hdiscard, hrun]
  exact ⟨h.holds.without (workingAt_ne_nil root n) fun _ => cleared_eq_none, h.vacant.after _ _⟩

/-- The working location of a name and what is below it are apart from those of the name. -/
theorem not_working_prefix {more : Location} :
    ¬ workingAt root n <+: root.location ++ [n] ++ more := by
  rw [workingAt, List.append_assoc, List.prefix_append_right_inj, List.singleton_append,
    List.cons_prefix_cons]
  intro hprefix
  exact List.cons_ne_nil _ _ (List.append_right_eq_self.mp hprefix.1)

/-- While a folder is being filled, there is under its own name what was there. -/
theorem Filling.entryAt?_name (h : Filling s₀ root n ready files s) (more : Location) :
    s.disk.entryAt? (root.location ++ [n] ++ more) =
      ready.entryAt? (root.location ++ [n] ++ more) := by
  rw [h.holds.outside _ not_working_prefix, entryAt?_cleared, if_neg not_working_prefix]

/-- **Completing a folder** moves it to its own name, where nothing is or an empty directory; a
folder that cannot be completed is discarded. -/
theorem commit_ends (h : Filling s₀ root n ready files s) (hn : IsName n) :
    Ends s (named root n).commit
      (fun output s' => output = root.join n ∧
        (cleared root n ready).Holds (root.location ++ [n]) files s'.disk ∧
        Vacant s₀ root n ready s' ∧ (ready.entryAt? (root.location ++ [n]) = none ∨
          ready.entryAt? (root.location ++ [n]) = some .directory ∧
            ∀ more, more ≠ [] → ready.entryAt? (root.location ++ [n] ++ more) = none))
      (fun _ s' => Same (cleared root n ready) s'.disk ∧ Vacant s₀ root n ready s') := by
  have htop := h.entryAt?_name []
  rw [List.append_nil] at htop
  have hrename : Storage.rename (m := StateM Session) (named root n).working (named root n).target =
      Session.change (.rename (named root n).working (named root n).target)
        fun d => d.rename (named root n).working (named root n).target := rfl
  rw [commit, Session.ends_bind, Session.ends_lift, hrename]
  rcases Session.run_change_cases s (.rename (named root n).working (named root n).target)
    (fun d => d.rename (named root n).working (named root n).target) with
    ⟨e, hrun⟩ | ⟨d, hd, hrun⟩
  · rw [hrun]
    exact run_discard (h.after _) hn
  · rw [hrun]
    have hne : n ++ workingSuffix ≠ n := fun heq =>
      List.cons_ne_nil _ _ (List.append_right_eq_self.mp heq)
    obtain ⟨hmove, hplace⟩ :=
      Disk.rename_join hn (isName_working hn) hne hd h.holds.directory
    refine ⟨rfl, ?_, h.vacant.after _ _, ?_⟩
    · change Disk.Holds _ _ _ d
      rw [hmove]
      exact h.holds.move (workingAt_ne_nil root n) (List.concat_ne_nil _ _) fun _ =>
        cleared_eq_none
    · rw [htop] at hplace
      refine hplace.imp_right fun hempty => ⟨hempty.1, fun more hmore => ?_⟩
      rw [← h.entryAt?_name, Disk.entryAt?_of_isBare hempty.2 hmore]

/-! ## What is left of a folder -/

/-- **The name that is chosen** for a folder: the names to try before it are taken, if only by
the path of the root itself, and it is vacant. -/
structure Chosen (s₀ : Session) (root : Path) (name : Text) (s : Session) (n : Text) : Prop where
  first : ∃ earlier later, candidates name = earlier ++ n :: later ∧ ∀ m ∈ earlier,
    s₀.disk.entryAt? (root.location ++ [m]) ≠ none ∨ root.Passes (root.location ++ [m])
  vacant : Vacant s₀ root n s₀.disk s

/-- Where no look fails, the name that is chosen was free. -/
theorem Chosen.free (h : Chosen s₀ root name s n)
    (hlooks : ∀ calls, s₀.fault calls (.isPresent (root.join n)) = none) :
    s₀.disk.entryAt? (root.location ++ [n]) = none := by
  rcases h.vacant with hfree | ⟨before, -, -, hfault⟩
  · exact hfree
  · exact absurd (hlooks before) hfault

/-- **What is left of a folder that was not completed**, on a disk with a root: nothing. -/
structure Spared (s₀ : Session) (root : Path) (name : Text) (s : Session) : Prop where
  /-- What was there is there, but an earlier folder of the same working name may be gone. -/
  kept : (∀ l e, s₀.disk.entryAt? l = some e → s.disk.entryAt? l = some e) ∨
    ∃ n, Chosen s₀ root name s n ∧ ∀ l e, s₀.disk.entryAt? l = some e →
      s.disk.entryAt? l = if workingAt root n <+: l then none else some e
  /-- What is new is a directory through which the path of the root leads. -/
  added : ∀ l, s₀.disk.entryAt? l = none →
    s.disk.entryAt? l = none ∨ root.Passes l ∧ s.disk.entryAt? l = some .directory
  /-- Without steps back up nothing is new below the root. -/
  below : root.Descends → ∀ more, more ≠ [] → s₀.disk.entryAt? (root.location ++ more) = none →
    s.disk.entryAt? (root.location ++ more) = none

/-- **What is there when a folder is completed**: its files under the name that was chosen, and
otherwise what was there before. -/
structure Delivered (s₀ : Session) (root : Path) (name : Text) (n : Text)
    (files : List (Text × Text)) (s : Session) : Prop where
  chosen : Chosen s₀ root name s n
  /-- Nothing was under the name, or an empty directory. -/
  place : s₀.disk.entryAt? (root.location ++ [n]) = none ∨
    s₀.disk.entryAt? (root.location ++ [n]) = some .directory
  empty : ∀ more, more ≠ [] → s₀.disk.entryAt? (root.location ++ [n] ++ more) = none
  directory : s.disk.entryAt? (root.location ++ [n]) = some .directory
  inside : ∀ file, s.disk.entryAt? (root.location ++ [n] ++ [file]) =
    (files.reverse.lookup file).map .text
  deeper : ∀ file step below,
    s.disk.entryAt? (root.location ++ [n] ++ file :: step :: below) = none
  /-- What was there is there, but an earlier folder of the same working name is gone. -/
  kept : ∀ l e, ¬ root.location ++ [n] <+: l → s₀.disk.entryAt? l = some e →
    s.disk.entryAt? l = if workingAt root n <+: l then none else some e
  /-- What else is new is a directory through which the path of the root leads. -/
  added : ∀ l, ¬ root.location ++ [n] <+: l → s₀.disk.entryAt? l = none →
    s.disk.entryAt? l = none ∨ root.Passes l ∧ s.disk.entryAt? l = some .directory
  /-- Without steps back up nothing else is new below the root. -/
  below : root.Descends → ∀ more, more ≠ [] → ¬ root.location ++ [n] <+: root.location ++ more →
    s₀.disk.entryAt? (root.location ++ more) = none →
      s.disk.entryAt? (root.location ++ more) = none

/-- **A folder is begun** on a disk, when it has been made ready. -/
structure Begun (root : Path) (name : Text) (before ready : Disk) (n : Text) : Prop where
  grown : Grown root before ready
  first : ∃ earlier later, candidates name = earlier ++ n :: later ∧ ∀ m ∈ earlier,
    before.entryAt? (root.location ++ [m]) ≠ none ∨ root.Passes (root.location ++ [m])
  isName : IsName n

namespace Begun

variable {l : Location}

/-- The name of a folder that was begun was chosen. -/
theorem chosen (h : Begun root name s₀.disk ready n) (hvacant : Vacant s₀ root n ready s) :
    Chosen s₀ root name s n :=
  ⟨h.first, hvacant.imp_left h.grown.none⟩

variable (h : Begun root name before ready n)

include h

/-- What was there is there, but for what was left of an earlier folder. -/
theorem kept {e : Entry} (hl : before.entryAt? l = some e) :
    (cleared root n ready).entryAt? l = if workingAt root n <+: l then none else some e := by
  rw [entryAt?_cleared, h.grown.kept hl]

/-- What is new is a directory through which the path of the root leads. -/
theorem added (hl : before.entryAt? l = none) : (cleared root n ready).entryAt? l = none ∨
    root.Passes l ∧ (cleared root n ready).entryAt? l = some .directory := by
  rw [entryAt?_cleared]
  by_cases hworking : workingAt root n <+: l
  · rw [if_pos hworking]
    exact .inl rfl
  · rw [if_neg hworking]
    exact h.grown.added hl

end Begun

/-- Without steps back up nothing that is new is below a root. -/
theorem none_below {d : Disk} {more : Location} (hroot : root.Descends) (hmore : more ≠ [])
    (h : d.entryAt? (root.location ++ more) = none ∨
      root.Passes (root.location ++ more) ∧
        d.entryAt? (root.location ++ more) = some .directory) :
    d.entryAt? (root.location ++ more) = none :=
  h.resolve_right fun hnew => Path.not_passes_below hroot hmore hnew.1

/-- Directories on the way to the root may be left. -/
theorem spared_of_grown (h : Grown root s₀.disk s.disk) : Spared s₀ root name s where
  kept := .inl fun _ _ => h.kept
  added _ := h.added
  below hroot _ hmore hnone := none_below hroot hmore (h.added hnone)

/-- A folder that was begun and is gone leaves a disk as it was. -/
theorem Begun.spared (h : Begun root name s₀.disk ready n) (hvacant : Vacant s₀ root n ready s)
    (hsame : Same (cleared root n ready) s.disk) : Spared s₀ root name s where
  kept := .inr ⟨n, h.chosen hvacant, fun l _ hl => (hsame l).trans (h.kept hl)⟩
  added l hl := hsame l ▸ h.added hl
  below hroot _ hmore hnone := none_below hroot hmore (hsame _ ▸ h.added hnone)

/-- A folder that was begun and is completed adds its files to a disk. -/
theorem Begun.delivered (h : Begun root name s₀.disk ready n) (hsound : s₀.disk.Sound)
    (hvacant : Vacant s₀ root n ready s)
    (hholds : (cleared root n ready).Holds (root.location ++ [n]) files s.disk)
    (hplace : ready.entryAt? (root.location ++ [n]) = none ∨
      ready.entryAt? (root.location ++ [n]) = some .directory ∧
        ∀ more, more ≠ [] → ready.entryAt? (root.location ++ [n] ++ more) = none) :
    Delivered s₀ root name n files s where
  chosen := h.chosen hvacant
  place := by
    rcases hplace with hnone | ⟨hdirectory, -⟩
    · exact .inl (h.grown.none hnone)
    · rcases h.grown (root.location ++ [n]) with hsame | ⟨-, hnone, -⟩
      · exact .inr (hsame.symm.trans hdirectory)
      · exact .inl hnone
  empty more hmore := by
    rcases hplace with hnone | ⟨-, hempty⟩
    · exact hsound.none_below (h.grown.none hnone) (List.prefix_append _ more)
    · exact h.grown.none (hempty more hmore)
  directory := hholds.directory
  inside := hholds.inside
  deeper := hholds.deeper
  kept l _ hout hl := (hholds.outside l hout).trans (h.kept hl)
  added l hout hl := hholds.outside l hout ▸ h.added hl
  below hroot _ hmore hout hnone :=
    none_below hroot hmore (hholds.outside _ hout ▸ h.added hnone)

/-! ## Beginning -/

/-- The search for a name looks at the first, and goes on if it is taken. -/
theorem run_free?_cons (s : Session) (root : Path) (n : Text) (names : List Text) :
    ((free? (m := StateM Session) root (n :: names)).run s).run =
      match ((Session.look (root.join n)).run s).run with
      | (true, s') => ((free? (m := StateM Session) root names).run s').run
      | (false, s') => (some (root.join n), s') := by
  have hbind : free? (m := StateM Session) root (n :: names) =
      Session.look (root.join n) >>= fun there =>
        if there = true then free? root names else return some (root.join n) := rfl
  rw [hbind, StateT.run_bind, Id.run_bind]
  rcases ((Session.look (root.join n)).run s).run with ⟨_ | _, s'⟩
  · rfl
  · rfl

/-- **The search for a name** ends at the first that no look finds taken. -/
theorem run_free? (hlater : s₀.Later s) (root : Path) (names : List Text) : ∃ found s',
    ((free? (m := StateM Session) root names).run s).run = (found, s') ∧ s'.disk = s.disk ∧
      s₀.Later s' ∧ ∀ path, found = some path →
        ∃ earlier n later, names = earlier ++ n :: later ∧ path = root.join n ∧
          (∀ m ∈ earlier, s.disk.isPresent (root.join m) = true) ∧
          (s.disk.isPresent (root.join n) = false ∨ s₀.Failed s' (.isPresent (root.join n))) := by
  induction names generalizing s with
  | nil => exact ⟨none, s, rfl, rfl, hlater, nofun⟩
  | cons n names ih =>
      obtain ⟨there, hlook, htaken, hfree⟩ := Session.run_look hlater (root.join n)
      rw [run_free?_cons, hlook]
      cases there with
      | false =>
          refine ⟨_, _, rfl, rfl, hlater.after _ _, fun path hpath => ?_⟩
          exact ⟨[], n, names, rfl, (Option.some.inj hpath).symm, nofun, hfree rfl⟩
      | true =>
          obtain ⟨found, s', hrest, hdisk, hlater', hfound⟩ := ih (hlater.after _ s.disk)
          refine ⟨found, s', hrest, hdisk, hlater', fun path hpath => ?_⟩
          obtain ⟨earlier, m, later, hnames, hm, htaken', hfree'⟩ := hfound path hpath
          refine ⟨n :: earlier, m, later, by rw [hnames, List.cons_append], hm, ?_, hfree'⟩
          exact List.forall_mem_cons.mpr ⟨htaken rfl, htaken'⟩

/-- The first name that is not taken begins a folder, when the root has been made. -/
theorem begun_of_taken {earlier later : List Text} (hname : IsName name)
    (hgrown : Grown root before ready) (hnames : candidates name = earlier ++ n :: later)
    (htaken : ∀ m ∈ earlier, ready.isPresent (root.join m) = true) :
    Begun root name before ready n := by
  have hcandidate : ∀ m ∈ earlier ++ n :: later, IsName m := fun m hm =>
    isName_candidate hname (hnames ▸ hm)
  refine ⟨hgrown, ⟨earlier, later, hnames, fun m hm => ?_⟩,
    hcandidate n (List.mem_append_right earlier List.mem_cons_self)⟩
  have hthere := Disk.entryAt?_of_isPresent (hcandidate m (List.mem_append_left _ hm)) (htaken m hm)
  rcases hgrown (root.location ++ [m]) with hsame | ⟨hpass, -⟩
  · exact .inl (hsame ▸ hthere)
  · exact .inr hpass

/-- A name that no look finds taken is vacant, if its folder can be made. -/
theorem vacant_of_free (hn : IsName n) (hfits : Fits (root.join (n ++ workingSuffix)))
    (hleads : ready.Leads root.steps) (hwidth : (n ++ workingSuffix).width ≤ Path.nameLimit)
    (hfree : ready.isPresent (root.join n) = false ∨ s₀.Failed s (.isPresent (root.join n))) :
    Vacant s₀ root n ready s := by
  have hwidth' : n.width ≤ Path.nameLimit :=
    Nat.le_trans (Nat.le_add_right _ _) (Text.width_append n workingSuffix ▸ hwidth)
  exact hfree.imp_left (Disk.entryAt?_of_not_isPresent hn
    (.of_append (Path.join_append hn root _ ▸ hfits)) hleads hwidth')

/-- What is left of an earlier folder is removed, or nothing happens. -/
theorem removeStale_ends (hlater : s₀.Later s) (hn : IsName n)
    (hfree : s.disk.isPresent (root.join n) = false ∨ s₀.Failed s (.isPresent (root.join n))) :
    Ends s (removeStale (named root n).working)
      (fun _ s' => s₀.Later s' ∧
        (s.disk.isPresent (root.join n) = false ∨ s₀.Failed s' (.isPresent (root.join n))) ∧
        (s'.disk = s.disk ∨
          s'.disk = s.disk.without (workingAt root n) ∧ Vacant s₀ root n s.disk s'))
      (fun _ s' => s'.disk = s.disk) := by
  obtain ⟨there, hlook, -, -⟩ := Session.run_look hlater (named root n).working
  have hpresent : Storage.isPresent (m := StateM Session) (named root n).working =
      Session.look (named root n).working := rfl
  have hfree' := hfree.imp_right fun h => h.after (.isPresent (named root n).working) s.disk
  rw [removeStale, Session.ends_bind, Session.ends_lift, hpresent, hlook]
  cases there with
  | false => exact ⟨hlater.after _ _, hfree', .inl rfl⟩
  | true =>
      refine Session.ends_attempt_change (fun _ => rfl) fun d hd => ?_
      obtain ⟨hfits, hleads, hwidth, hgone⟩ := Disk.removeTree_join (isName_working hn) hd
      have hfree'' := hfree'.imp_right fun h => h.after (.removeTree (named root n).working) d
      exact ⟨(hlater.after _ _).after _ _, hfree'',
        .inr ⟨hgone, vacant_of_free hn hfits hleads hwidth hfree''⟩⟩

/-- The root of a folder is made, and what is on the way to it. -/
theorem createRoot_ends (hlater : s₀.Later s) (hd : s.disk.Sound) :
    Ends s (attempt (FolderError.creatingRoot root) (Storage.createDirectories root))
      (fun _ s' => Grown root s.disk s'.disk ∧ s'.disk.Sound ∧ s'.disk.Leads root.steps ∧
        s₀.Later s')
      (fun _ s' => Grown root s.disk s'.disk) := by
  obtain ⟨hgrown, hsound, hleads⟩ := Disk.createDirectories_made (p := root) hd
  have hrun : ((Storage.createDirectories (m := StateM Session) root).run s).run =
      ((Session.call (.createDirectories root) fun d => d.createDirectories root).run s).run := rfl
  rw [Session.ends_attempt, hrun, Session.run_call]
  cases s.fault s.calls (.createDirectories root) with
  | some e => exact .refl root s.disk
  | none =>
      cases hresult : (s.disk.createDirectories root).1 with
      | error e => exact hgrown
      | ok _ => exact ⟨hgrown, hsound, hleads hresult, hlater.after _ _⟩

/-- The folder that was made is empty, and nothing else has changed. -/
theorem filling_of_createDirectory {d' : Disk} (hlater : s₀.Later s) (hs : s₀.RemovesMade)
    (hn : IsName n) (hsound : ready.Sound) (hleads : ready.Leads root.steps)
    (hdisk : s.disk = ready ∨ s.disk = ready.without (workingAt root n))
    (hfree : ready.isPresent (root.join n) = false ∨ s₀.Failed s (.isPresent (root.join n)))
    (hd' : s.disk.createDirectory (named root n).working = .ok d') :
    Filling s₀ root n ready [] (s.after (.createDirectory (named root n).working) d') := by
  obtain ⟨front, m, hsteps, -, hfits, hfront, hwidth, hnone, rfl⟩ :=
    Disk.createDirectory_eq_ok.mp hd'
  have hjoin := hsteps.symm.trans (Path.steps_join (isName_working hn) root)
  obtain ⟨rfl, hm⟩ := List.append_inj' hjoin rfl
  obtain rfl := List.singleton_inj.mp hm
  have hsame : Same (cleared root n ready) s.disk := by
    rcases hdisk with hdisk | hdisk
    · intro l
      rw [entryAt?_cleared, hdisk]
      split
      · exact hsound.none_below (hdisk ▸ hnone) ‹_›
      · rfl
    · rw [hdisk]
      exact .refl _
  have hne := workingAt_ne_nil root n
  refine ⟨.empty hsame hne fun _ => cleared_eq_none, hfront.mono fun l hl => ?_, hfits, hwidth,
    List.mem_cons_self, hlater.after _ _, hs, (vacant_of_free hn hfits hleads hwidth hfree).after _ _⟩
  change (s.disk.put (workingAt root n) .directory).entryAt? l = _
  rw [Disk.entryAt?_put _ _ hne, hl, ite_self]

/-- **Beginning a folder** leaves nothing, or an empty folder under a working name. -/
theorem create_ends (hname : IsName name) (hd : s₀.disk.Sound) (hs : s₀.RemovesMade)
    (hlater : s₀.Later s) (hdisk : s.disk = s₀.disk) :
    Ends s (create root name)
      (fun f s' => ∃ ready n, Begun root name s₀.disk ready n ∧ f = named root n ∧
        Filling s₀ root n ready [] s')
      (fun _ s' => Spared s₀ root name s') := by
  rw [create, Session.ends_bind]
  refine (createRoot_ends hlater (hdisk ▸ hd)).mono (fun _ s₁ hroot => ?_) fun _ s₁ hgrown =>
    spared_of_grown (hdisk ▸ hgrown)
  rw [hdisk] at hroot
  obtain ⟨hgrown, hsound, hleads, hlater₁⟩ := hroot
  obtain ⟨found, s₂, hsearch, hdisk₂, hlater₂, hfound⟩ := run_free? hlater₁ root (candidates name)
  rw [Session.ends_bind, Session.ends_lift, hsearch]
  cases found with
  | none => exact spared_of_grown (hdisk₂ ▸ hgrown)
  | some path =>
      obtain ⟨earlier, n, later, hnames, rfl, htaken, hfree⟩ := hfound path rfl
      rw [← hdisk₂] at hgrown hsound hleads htaken hfree
      have hbegun := begun_of_taken hname hgrown hnames htaken
      have hn := hbegun.isName
      change Ends s₂ (removeStale (root.join n ++ workingSuffix) >>= _) _ _
      rw [Path.join_append hn, Session.ends_bind]
      refine (removeStale_ends hlater₂ hn hfree).mono (fun _ s₃ hstale => ?_) fun _ s₃ hdisk =>
        spared_of_grown (hdisk ▸ hbegun.grown)
      obtain ⟨hlater₃, hfree₃, hdisk₃⟩ := hstale
      rw [Session.ends_bind]
      refine Session.ends_attempt_change (fun _ => ?_) fun d hmade => ?_
      · rcases hdisk₃ with hdisk | ⟨hdisk, hvacant⟩
        · exact spared_of_grown (hdisk ▸ hbegun.grown)
        · exact hbegun.spared (hvacant.after _ _) (hdisk ▸ .refl _)
      · exact ⟨s₂.disk, n, hbegun, rfl, filling_of_createDirectory hlater₃ hs hn hsound hleads
          (hdisk₃.imp_right And.left) hfree₃ hmade⟩

end Folder

end SharpMutants
