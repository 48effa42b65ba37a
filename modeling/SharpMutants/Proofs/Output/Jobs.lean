import SharpMutants.Proofs.Mutation.Outcome
import SharpMutants.Proofs.Output.Deliveries
import SharpMutants.Proofs.Output.Folders

/-!
# Jobs leave all or nothing

A job only reads until it knows what it delivers (`settingsOf_ends`); then all that it writes goes
into a folder that is being filled (`fill_ends`), and `deliver_ends` follows that folder from its
beginning to its completion.  `execute_all_or_nothing` is the contract of a job: if it fails, it
leaves nothing behind but directories on the way to its root; if it ends well, a new folder with
its survivors has appeared under a free name, and nothing else.  Two things keep the contract from
being simpler (`exists_more_left`): the way to a root may lead through the root and back up, and a
look at a name may fail.
-/

namespace SharpMutants

namespace Job

open Session (Ends)
open Folder (Delivered Filling Spared named nameFor mutantFile)
open SharpMutants.Path (IsName)

variable {a : Arguments} {now : Moment} {settings : Settings} {d : Document} {r : Run}
  {root : Path} {n : Text} {ready : Disk} {files more : List (Text × Text)} {s₀ s : Session}

/-- The path under which a job makes its folder. -/
def rootOf (a : Arguments) : Path := a.outputDir.toList

/-- **Writing files one after another** leaves a folder with all of them, or with those that went
well. -/
theorem writeAll_ends (h : Filling s₀ root n ready files s) (hn : IsName n)
    (hmore : ∀ f ∈ more, IsName f.1) :
    Ends s (writeAll (named root n) more)
      (fun _ s' => Filling s₀ root n ready (files ++ more) s')
      (fun _ s' => ∃ files', Filling s₀ root n ready files' s') := by
  induction more generalizing files s with
  | nil => exact (List.append_nil files).symm ▸ h
  | cons f more ih =>
      obtain ⟨file, content⟩ := f
      rw [List.forall_mem_cons] at hmore
      rw [writeAll, Session.ends_bind]
      refine (Folder.write_ends h hn hmore.1).mono (fun _ s' h' => ?_) fun _ s' h' => ⟨files, h'⟩
      rw [List.append_cons files (file, content) more]
      exact ih h' hmore.2

/-- **Drawing methods one after another** leaves a folder with the drawings of all, or of some. -/
theorem drawAll_ends {ms : List Nat} (h : Filling s₀ root n ready files s) (hn : IsName n)
    (hd : d.tree.Grammatical) (hms : ∀ m ∈ ms, m ∈ d.tree.methods) :
    Ends s (drawAll (named root n) d d.arena ms)
      (fun _ s' => Filling s₀ root n ready (files ++ drawingFiles d ms) s')
      (fun _ s' => ∃ files', Filling s₀ root n ready files' s') := by
  induction ms generalizing files s with
  | nil => exact (List.append_nil files).symm ▸ h
  | cons m ms ih =>
      rw [List.forall_mem_cons] at hms
      obtain ⟨_, _, hnamed⟩ := hd.exists_isNamed hms.1
      have hfile : IsName (drawingFile d m) := isName_dot hnamed.slash_not_mem
      rw [drawAll, Session.ends_bind, Session.ends_of_except, drawing_eq hd hms.1]
      dsimp only
      rw [Session.ends_bind, Session.ends_adapt]
      refine (Folder.write_ends h hn hfile).mono (fun _ s' h' => ?_) fun _ s' h' => ⟨files, h'⟩
      rw [drawingFiles, List.map_cons, List.append_cons files]
      exact ih h' hms.2

/-- Reporting leaves a folder with the report, if one is wanted, or the folder as it was. -/
theorem report_ends (settings : Settings) (now : Moment) (r : Run)
    (h : Filling s₀ root n ready files s) (hn : IsName n) :
    Ends s (if a.report = true then (do
        let content ← ExceptT.mk (pure (reportOn a settings now r))
        Folder.attempt (.report ((named root n).working.join reportFile))
          (Storage.write ((named root n).working.join reportFile) content)) else pure ())
      (fun _ s' => ∃ report,
        Filling s₀ root n ready (files ++ if a.report then [(reportFile, report)] else []) s')
      (fun _ s' => ∃ files', Filling s₀ root n ready files' s') := by
  split
  · rw [Session.ends_bind, Session.ends_of_except]
    cases reportOn a settings now r with
    | error e => exact ⟨files, h⟩
    | ok content =>
        exact (h.put_ends hn ⟨by decide, by decide, by decide, by decide⟩).mono
          (fun _ s' h' => ⟨content, h'⟩) fun _ s' h' => ⟨files, h'⟩
  · exact ⟨[], (List.append_nil files).symm ▸ h⟩

/-- **Filling a folder** leaves it with what the job is to write, or with some files. -/
theorem fill_ends (a : Arguments) (settings : Settings) (now : Moment)
    (h : Filling s₀ root n ready [] s) (hn : IsName n) (hr : r.document.tree.Grammatical) :
    Ends s (fill a settings now r (named root n))
      (fun _ s' => ∃ report, Filling s₀ root n ready (contents a r report) s')
      (fun _ s' => ∃ files, Filling s₀ root n ready files s') := by
  have hmutants : ∀ f ∈ mutantFiles r, IsName f.1 := fun f hf => by
    obtain ⟨i, -, hname⟩ := mem_mutantFiles hf
    exact hname ▸ Folder.isName_mutantFile i
  rw [fill, Session.ends_bind, Session.ends_adapt]
  refine (writeAll_ends h hn hmutants).mono (fun _ s₁ h₁ => ?_) fun _ s₁ h₁ => h₁
  rw [List.nil_append] at h₁
  dsimp only
  by_cases hdot : a.dot = true
  · rw [if_pos hdot, Session.ends_bind]
    refine (drawAll_ends h₁ hn hr fun _ => id).mono (fun _ s₂ h₂ => ?_) fun _ s₂ h₂ => h₂
    simp only [contents, if_pos hdot]
    exact report_ends settings now r h₂ hn
  · rw [if_neg hdot]
    simp only [contents, if_neg hdot, List.append_nil]
    exact report_ends settings now r h₁ hn

/-- **Delivering** leaves nothing, or all files in a new folder. -/
theorem deliver_ends (a : Arguments) (settings : Settings) (now : Moment) (hd : s₀.disk.Sound)
    (hs : s₀.RemovesMade) (hlater : s₀.Later s) (hdisk : s.disk = s₀.disk)
    (hr : r.document.tree.Grammatical) :
    Ends s (deliver a settings now r)
      (fun output s' => ∃ n report, output = (rootOf a).join n ∧
        Delivered s₀ (rootOf a) (nameFor now) n (contents a r report) s')
      (fun _ s' => Spared s₀ (rootOf a) (nameFor now) s') := by
  rw [deliver, Session.ends_bind, Session.ends_adapt]
  refine (Folder.create_ends (Folder.isName_nameFor now) hd hs hlater hdisk).mono
    (fun f s₁ h => ?_) fun _ _ h => h
  obtain ⟨ready, n, hbegun, rfl, hfilling⟩ := h
  rw [Session.ends_run_bind]
  refine (fill_ends a settings now hfilling hbegun.isName hr).mono (fun _ s₂ h => ?_)
    fun _ s₂ h => ?_
  · obtain ⟨report, hfilling⟩ := h
    rw [Session.ends_adapt]
    refine (Folder.commit_ends hfilling hbegun.isName).mono (fun output s' h => ?_)
      fun _ s' h => hbegun.spared h.2 h.1
    obtain ⟨houtput, hholds, hvacant, hplace⟩ := h
    exact ⟨n, report, houtput, hbegun.delivered hd hvacant hholds hplace⟩
  · obtain ⟨files, hfilling⟩ := h
    obtain ⟨hsame, hvacant⟩ := Folder.run_discard hfilling hbegun.isName
    exact hbegun.spared hvacant hsame

/-- The settings of a job are the standard ones, or those in a file that make sense. -/
def Loads (d : Disk) (a : Arguments) (settings : Settings) : Prop :=
  match a.config with
  | none => settings = .standard
  | some path => ∃ content, d.read path.toList = .ok content ∧
      Settings.read? content = some settings ∧ settings.validate = .ok ()

/-- Reading changes nothing. -/
theorem settingsOf_ends (a : Arguments) (s : Session) :
    Ends s (settingsOf a)
      (fun settings s' => Loads s.disk a settings ∧ s'.disk = s.disk ∧ s.Later s')
      (fun _ s' => s'.disk = s.disk) := by
  rw [settingsOf]
  split
  · rename_i hconfig
    refine ⟨?_, rfl, .refl s⟩
    rw [Loads, hconfig]
  · rename_i path hconfig
    rw [Session.ends_adapt, loadSettings, Session.ends_bind]
    refine Session.ends_attempt_query (fun _ => rfl) fun content hread => ?_
    cases hsettings : Settings.read? content with
    | none => exact rfl
    | some settings =>
        dsimp only
        cases hvalid : settings.validate with
        | error e => exact rfl
        | ok _ =>
            refine ⟨?_, rfl, (Session.Later.refl s).after _ _⟩
            rw [Loads, hconfig]
            exact ⟨content, hread, hsettings, hvalid⟩

/-- **How a job ends**: it has changed nothing before it delivers. -/
theorem execute_ends (a : Arguments) (now : Moment) (hd : s.disk.Sound) (hs : s.RemovesMade) :
    Ends s (execute a now)
      (fun summary s' => ∃ settings source n report, Loads s.disk a settings ∧
        s.disk.read a.source.toList = .ok source ∧
        runOn a settings source = .ok summary.run ∧ summary.output = (rootOf a).join n ∧
        Delivered s (rootOf a) (nameFor now) n (contents a summary.run report) s')
      (fun _ s' => Spared s (rootOf a) (nameFor now) s') := by
  have hsame : ∀ s' : Session, s'.disk = s.disk → Spared s (rootOf a) (nameFor now) s' :=
    fun s' h => Folder.spared_of_grown (h ▸ .refl _ _)
  rw [execute]
  split
  · exact hsame _ rfl
  · rw [Session.ends_bind]
    refine (settingsOf_ends a s).mono (fun settings s₁ h => ?_) fun _ s₁ h => hsame _ h
    obtain ⟨hloads, hdisk, hlater⟩ := h
    rw [Session.ends_bind]
    refine Session.ends_attempt_query (fun _ => hsame _ hdisk) fun source hread => ?_
    rw [Session.ends_bind, Session.ends_of_except]
    cases hrun : runOn a settings source with
    | error e => exact hsame _ hdisk
    | ok r =>
        dsimp only
        rw [Session.ends_bind]
        refine (deliver_ends a settings now hd hs (hlater.after _ _) hdisk
          (grammatical_of_runOn hrun)).mono (fun output s₃ h => ?_) fun _ _ h => h
        obtain ⟨n, report, rfl, hdelivered⟩ := h
        exact ⟨settings, source, n, report, hloads, hdisk ▸ hread, hrun, rfl, hdelivered⟩

/-- Settings that a job loads make sense. -/
theorem Loads.validate {d : Disk} {settings : Settings} (h : Loads d a settings) :
    settings.validate = .ok () := by
  rw [Loads.eq_def] at h
  split at h
  · rw [h]
    rfl
  · obtain ⟨-, -, -, hvalid⟩ := h
    exact hvalid

/-- **What a job leaves that has ended well**: a folder under the name that was chosen, and in it
the texts of the survivors of its run, by number, and no further mutants. -/
structure Completed (s₀ : Session) (a : Arguments) (now : Moment) (n : Text) (summary : Summary)
    (s : Session) : Prop where
  output : summary.output = (rootOf a).join n
  run : ∃ settings source, Loads s₀.disk a settings ∧ s₀.disk.read a.source.toList = .ok source ∧
    Run.ofSource settings check source = .ok summary.run
  delivered : ∃ files, Delivered s₀ (rootOf a) (nameFor now) n files s
  mutants : ∀ i, s.disk.entryAt? ((rootOf a).location ++ [n] ++ [mutantFile i]) =
    summary.run.survivors[i]?.map fun m => .text m.document.render
  /-- A file is a mutant, or a drawing, or the report. -/
  files : ∀ file, s.disk.entryAt? ((rootOf a).location ++ [n] ++ [file]) ≠ none →
    (∃ i < summary.run.survivors.length, file = mutantFile i) ∨
      (a.dot = true ∧ ".dot".toList <:+ file) ∨ (a.report = true ∧ file = reportFile)

/-- **A job leaves all or nothing**, whichever calls fail, if what was made can be removed.  A job
that fails leaves the disk as it was, but for an earlier folder that was never completed; a job
that ends well has added one folder.  The name of the folder is free, or a look at it has failed
and an empty directory gives way.  Directories on the way to the root are made, which are below
the root only if its path goes back up. -/
theorem execute_all_or_nothing (a : Arguments) (now : Moment) (s : Session)
    (hd : s.disk.Sound) (hs : s.RemovesMade) :
    Ends s (execute a now)
      (fun summary s' => ∃ n, Completed s a now n summary s')
      (fun _ s' => Spared s (rootOf a) (nameFor now) s') := by
  refine (execute_ends a now hd hs).mono (fun summary s' h => ?_) fun _ _ h => h
  obtain ⟨settings, source, n, report, hloads, hread, hrun, houtput, hdelivered⟩ := h
  have hsource : Run.ofSource settings check source = .ok summary.run := by
    obtain ⟨hparse, hrun⟩ := parse_of_runOn hrun
    exact (Run.ofSource_of_parse hloads.validate hparse).trans hrun
  refine ⟨n, houtput, ⟨settings, source, hloads, hread, hsource⟩, ⟨_, hdelivered⟩, fun i => ?_,
    fun file hfile => ?_⟩
  · rw [hdelivered.inside, lookup_mutant, Option.map_map]
    rfl
  · by_contra hother
    have hnone : ∀ f ∈ contents a summary.run report, f.1 ≠ file := by
      intro f hf hname
      subst hname
      refine hother ?_
      rcases cases_of_mem_contents hf with hmutant | ⟨hdot, m, -, hname⟩ | hreport
      · exact .inl hmutant
      · exact .inr (.inl ⟨hdot, _, hname.symm⟩)
      · exact .inr (.inr hreport)
    rw [hdelivered.inside, lookup_none hnone] at hfile
    exact hfile rfl

/-- A job whose folder cannot get its name. -/
theorem execute_all_or_nothing_refused :
    let a : Arguments := ⟨"a.cs", "out", none, 0, true, false, false, false⟩
    let now : Moment := ⟨2024, 1, 2, 3, 4, 5, 0⟩
    let source := "class A \x7b void M(int n) \x7b n--; \x7d \x7d".toList
    let s : Session := ⟨[(["a.cs".toList], .text source)], [], fun _ c =>
      match c with
      | .rename .. => some .busy
      | _ => none⟩
    s.disk.Sound ∧ s.RemovesMade ∧ ∃ e s', s.outcome (execute a now) = (.error e, s') ∧
      s'.disk = s.disk ++ [(["out".toList], .directory)] ∧
      Spared s (rootOf a) (nameFor now) s' := by
  intro a now source s
  have hsound : s.disk.Sound := Disk.sound_of_parents (by decide)
  have hremoves : s.RemovesMade := fun _ _ _ => rfl
  have hends := execute_all_or_nothing a now s hsound hremoves
  have hrefused : Ends s (execute a now) (fun _ _ => False)
      (fun _ s' => s'.disk = s.disk ++ [(["out".toList], .directory)]) := by
    decide +kernel
  obtain ⟨e, s', hrun, hspared, hdisk⟩ := (hends.and hrefused).exists_error fun _ _ => And.right
  exact ⟨hsound, hremoves, e, s', hrun, hdisk, hspared⟩

/-- **More may be left** below a root than the folder, or less.  A job whose root is `out/x/..` and
that fails leaves `x` in `out`; and if a look at the name of the folder fails, an empty directory
of this name is replaced. -/
theorem exists_more_left :
    let now : Moment := ⟨2024, 1, 2, 3, 4, 5, 0⟩
    let source := "class A \x7b void M(int n) \x7b n--; \x7d \x7d".toList
    let n := nameFor now
    (let a : Arguments := ⟨"a.cs", "out/x/..", none, 0, true, false, false, false⟩
      let s : Session := .ofDisk [(["a.cs".toList], .text source), (["out".toList], .directory),
        (["out".toList, n ++ Folder.workingSuffix], .text [])]
      s.disk.Sound ∧ s.RemovesMade ∧ ∃ e s', s.outcome (execute a now) = (.error e, s') ∧
        s.disk.entryAt? ((rootOf a).location ++ ["x".toList]) = none ∧
        s'.disk.entryAt? ((rootOf a).location ++ ["x".toList]) = some .directory) ∧
    let a : Arguments := ⟨"a.cs", "out", none, 0, true, false, false, false⟩
    let s : Session := ⟨[(["a.cs".toList], .text source), (["out".toList], .directory),
      (["out".toList, n], .directory)], [], fun _ c =>
        match c with
        | .isPresent _ => some .busy
        | _ => none⟩
    s.disk.Sound ∧ s.RemovesMade ∧ ∃ summary s', s.outcome (execute a now) = (.ok summary, s') ∧
      summary.output = (rootOf a).join n ∧
      s.disk.entryAt? ((rootOf a).location ++ [n]) = some .directory := by
  intro now source n
  refine ⟨?_, ?_⟩
  · intro a s
    have hmade : Ends s (execute a now) (fun _ _ => False) (fun _ s' =>
        s.disk.entryAt? ((rootOf a).location ++ ["x".toList]) = none ∧
          s'.disk.entryAt? ((rootOf a).location ++ ["x".toList]) = some .directory) := by
      decide +kernel
    exact ⟨Disk.sound_of_parents (by decide +kernel), fun _ _ _ => rfl,
      hmade.exists_error fun _ _ => id⟩
  · intro a s
    have hreplaced : Ends s (execute a now) (fun summary _ =>
        summary.output = (rootOf a).join n ∧
          s.disk.entryAt? ((rootOf a).location ++ [n]) = some .directory) (fun _ _ => False) := by
      decide +kernel
    exact ⟨Disk.sound_of_parents (by decide +kernel), fun _ _ _ => rfl,
      hreplaced.exists_ok fun _ _ => id⟩

end Job

end SharpMutants
