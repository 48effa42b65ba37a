import SharpMutants.Output.Folder
import SharpMutants.Proofs.Output.Calls

/-!
# Actions on a session

`Session.Ends s x good bad` says how an action ends that starts in a session: well, with one
property of its answer and the session then, or badly, with another.  Actions that follow one
another are taken apart by `ends_bind`, and a call by `ends_attempt_change`: it fails and changes
nothing, or goes through on the disk.

Calls make a session `Later` than the one before them.  Which of the calls since then have `Failed`
can be told from the record, as the faults stay the same.
-/

namespace SharpMutants

namespace Session

variable {ε ε' α β : Type}

/-- What comes of an action that starts in a session, and the session then. -/
def outcome (s : Session) (x : ExceptT ε (StateM Session) α) : Except ε α × Session :=
  (x.run.run s).run

/-- How an action ends that starts in a session. -/
def Ends (s : Session) (x : ExceptT ε (StateM Session) α) (good : α → Session → Prop)
    (bad : ε → Session → Prop) : Prop :=
  match s.outcome x with
  | (.ok a, s') => good a s'
  | (.error e, s') => bad e s'

/-- A session after one more call. -/
def after (s : Session) (c : Call) (d : Disk) : Session :=
  { s with disk := d, calls := c :: s.calls }

/-- **A session comes later** than another: it has made further calls under the same faults. -/
structure Later (s₀ s : Session) : Prop where
  calls : s₀.calls <:+ s.calls
  fault : s.fault = s₀.fault

theorem Later.refl (s : Session) : s.Later s := ⟨List.suffix_refl _, rfl⟩

/-- A call makes a session later. -/
theorem Later.after {s₀ s : Session} (h : s₀.Later s) (c : Call) (d : Disk) :
    s₀.Later (s.after c d) :=
  ⟨h.calls.trans (List.suffix_cons c s.calls), h.fault⟩

/-- A call was made between a session and a later one, and it was at fault. -/
def Failed (s₀ s : Session) (c : Call) : Prop :=
  ∃ before, s₀.calls <:+ before ∧ c :: before <:+ s.calls ∧ s₀.fault before c ≠ none

/-- A call that has failed has failed for good. -/
theorem Failed.after {s₀ s : Session} {c : Call} (h : s₀.Failed s c) (c' : Call) (d : Disk) :
    s₀.Failed (s.after c' d) c := by
  obtain ⟨before, hbefore, hcalls, hfault⟩ := h
  exact ⟨before, hbefore, hcalls.trans (List.suffix_cons c' s.calls), hfault⟩

variable {s₀ s : Session} {x : ExceptT ε (StateM Session) α} {good good' : α → Session → Prop}
  {bad bad' : ε → Session → Prop}

/-- An action that ends in a strong way ends in a weaker one. -/
theorem Ends.mono (h : Ends s x good bad) (hgood : ∀ a s', good a s' → good' a s')
    (hbad : ∀ e s', bad e s' → bad' e s') : Ends s x good' bad' := by
  rw [Ends] at h ⊢
  revert h
  rcases s.outcome x with ⟨e | a, s'⟩
  · exact hbad e s'
  · exact hgood a s'

/-- An action that ends in two ways ends in both. -/
theorem Ends.and (h : Ends s x good bad) (h' : Ends s x good' bad') :
    Ends s x (fun a s' => good a s' ∧ good' a s') fun e s' => bad e s' ∧ bad' e s' := by
  rw [Ends] at h h' ⊢
  revert h h'
  rcases s.outcome x with ⟨e | a, s'⟩
  · exact And.intro
  · exact And.intro

/-- An action that cannot end badly ends well. -/
theorem Ends.exists_ok (h : Ends s x good bad) (hbad : ∀ e s', ¬ bad e s') :
    ∃ a s', s.outcome x = (.ok a, s') ∧ good a s' := by
  rw [Ends] at h
  revert h
  rcases s.outcome x with ⟨e | a, s'⟩
  · exact fun h => absurd h (hbad e s')
  · exact fun h => ⟨a, s', rfl, h⟩

/-- An action that cannot end well ends badly. -/
theorem Ends.exists_error (h : Ends s x good bad) (hgood : ∀ a s', ¬ good a s') :
    ∃ e s', s.outcome x = (.error e, s') ∧ bad e s' := by
  rw [Ends] at h
  revert h
  rcases s.outcome x with ⟨e | a, s'⟩
  · exact fun h => ⟨e, s', rfl, h⟩
  · exact fun h => absurd h (hgood a s')

instance [∀ a s', Decidable (good a s')] [∀ e s', Decidable (bad e s')] :
    Decidable (Ends s x good bad) :=
  match h : s.outcome x with
  | (.ok a, s') => decidable_of_iff (good a s') (by rw [Ends, h])
  | (.error e, s') => decidable_of_iff (bad e s') (by rw [Ends, h])

/-- A result that is given ends as itself. -/
theorem ends_of_except {r : Except ε α} : Ends s (ExceptT.mk (pure r)) good bad ↔
    match r with
    | .ok a => good a s
    | .error e => bad e s := by
  cases r <;> rfl

/-- An action that goes on comes to what its second part does from where the first one ends. -/
theorem outcome_bind {f : α → ExceptT ε (StateM Session) β} : s.outcome (x >>= f) =
    match s.outcome x with
    | (.ok a, s') => s'.outcome (f a)
    | (.error e, s') => (.error e, s') := by
  rw [outcome, ExceptT.run_bind, StateT.run_bind, Id.run_bind, outcome]
  rcases (x.run.run s).run with ⟨e | a, s'⟩
  · rfl
  · rfl

/-- **An action that goes on** ends as its second part does from where the first one ends well. -/
theorem ends_bind {f : α → ExceptT ε (StateM Session) β} {good : β → Session → Prop} :
    Ends s (x >>= f) good bad ↔ Ends s x (fun a s' => Ends s' (f a) good bad) bad := by
  rw [Ends, outcome_bind, Ends]
  rcases s.outcome x with ⟨e | a, s'⟩
  · rfl
  · rfl

/-- An action whose errors are named anew ends as before. -/
theorem ends_adapt {f : ε → ε'} {bad : ε' → Session → Prop} :
    Ends s (ExceptT.adapt f x) good bad ↔ Ends s x good fun e s' => bad (f e) s' := by
  have houtcome : s.outcome (ExceptT.adapt f x) =
      (fun (r, s') => (r.mapError f, s')) (s.outcome x) := rfl
  rw [Ends, houtcome, Ends]
  rcases s.outcome x with ⟨e | a, s'⟩
  · rfl
  · rfl

/-- An action that cannot fail ends well. -/
theorem ends_lift {x : StateM Session α} :
    Ends s (ExceptT.lift x) good bad ↔ good (x.run s).run.1 (x.run s).run.2 := Iff.rfl

/-- What follows an action, however it ends. -/
theorem ends_run_bind {f : Except ε α → ExceptT ε' (StateM Session) β}
    {good : β → Session → Prop} {bad : ε' → Session → Prop} :
    Ends s (ExceptT.lift x.run >>= f) good bad ↔
      Ends s x (fun a s' => Ends s' (f (.ok a)) good bad)
        (fun e s' => Ends s' (f (.error e)) good bad) := by
  have hrun : (x.run.run s).run = s.outcome x := rfl
  rw [ends_bind, ends_lift, hrun]
  conv => rhs; rw [Ends]
  rcases s.outcome x with ⟨e | a, s'⟩
  · rfl
  · rfl

/-- An attempt ends as its call does, with an error that says what was tried. -/
theorem ends_attempt {x : StateM Session (Except StorageError α)} {cause : StorageError → ε} :
    Ends s (Folder.attempt cause x) good bad ↔
      match (x.run s).run with
      | (.ok a, s') => good a s'
      | (.error e, s') => bad (cause e) s' := by
  rw [Folder.attempt, ends_bind, ends_lift]
  rcases (x.run s).run with ⟨e | a, s'⟩
  · rfl
  · rfl

/-! ## Calls -/

section Calls

variable {c : Call} {cause : StorageError → ε}

/-- A call fails if it is at fault, and else does what it does to the disk. -/
theorem run_call {action : Disk → Except StorageError α × Disk} :
    ((call c action).run s).run =
      match s.fault s.calls c with
      | some e => (.error e, s.after c s.disk)
      | none => ((action s.disk).1, s.after c (action s.disk).2) := by
  have hrun : ((call c action).run s).run = call c action s := rfl
  rw [hrun, call]
  cases s.fault s.calls c with
  | some e => rfl
  | none => rfl

/-- **A look** tells what the disk has, or it is at fault and finds nothing. -/
theorem run_look (h : s₀.Later s) (p : Path) : ∃ there,
    ((look p).run s).run = (there, s.after (.isPresent p) s.disk) ∧
      (there = true → s.disk.isPresent p = true) ∧
      (there = false → s.disk.isPresent p = false ∨
        s₀.Failed (s.after (.isPresent p) s.disk) (.isPresent p)) := by
  have hrun : ((look p).run s).run =
      match ((query (.isPresent p) fun d => .ok (d.isPresent p)).run s).run with
      | (.ok there, s') => (there, s')
      | (.error _, s') => (false, s') := by
    rw [look, StateT.run_bind, Id.run_bind]
    rcases ((query (.isPresent p) fun d => .ok (d.isPresent p)).run s).run with ⟨e | a, s'⟩
    · rfl
    · rfl
  rw [hrun, query, run_call]
  cases hfault : s.fault s.calls (.isPresent p) with
  | none => exact ⟨s.disk.isPresent p, rfl, id, .inl⟩
  | some e =>
      refine ⟨false, rfl, nofun, fun _ => .inr ⟨s.calls, h.calls, List.suffix_refl _, ?_⟩⟩
      rw [← h.fault, hfault]
      exact Option.some_ne_none e

/-- **A change** fails and leaves the disk as it is, or goes through. -/
theorem run_change_cases (s : Session) (c : Call) (action : Disk → Except StorageError Disk) :
    (∃ e, ((change c action).run s).run = (.error e, s.after c s.disk)) ∨
      ∃ d, action s.disk = .ok d ∧ ((change c action).run s).run = (.ok (), s.after c d) := by
  rw [change, run_call]
  cases s.fault s.calls c with
  | some e => exact .inl ⟨e, rfl⟩
  | none =>
      cases haction : action s.disk with
      | error e => exact .inl ⟨e, rfl⟩
      | ok d => exact .inr ⟨d, rfl, rfl⟩

/-- A change that is not at fault goes through if the disk allows it. -/
theorem run_change {action : Disk → Except StorageError Disk} {d : Disk}
    (hfault : s.fault s.calls c = none) (h : action s.disk = .ok d) :
    ((change c action).run s).run = (.ok (), s.after c d) := by
  rw [change, run_call, hfault]
  dsimp only
  rw [h]

/-- An attempted query leaves the disk as it is. -/
theorem ends_attempt_query {action : Disk → Except StorageError α}
    (hbad : ∀ e, bad (cause e) (s.after c s.disk))
    (hgood : ∀ a, action s.disk = .ok a → good a (s.after c s.disk)) :
    Ends s (Folder.attempt cause (query c action)) good bad := by
  rw [ends_attempt, query, run_call]
  cases s.fault s.calls c with
  | some e => exact hbad e
  | none =>
      cases haction : action s.disk with
      | error e => exact hbad e
      | ok a => exact hgood a haction

/-- An attempted change leaves the disk as it is, or as the change makes it. -/
theorem ends_attempt_change {good : Unit → Session → Prop}
    {action : Disk → Except StorageError Disk}
    (hbad : ∀ e, bad (cause e) (s.after c s.disk))
    (hgood : ∀ d, action s.disk = .ok d → good () (s.after c d)) :
    Ends s (Folder.attempt cause (change c action)) good bad := by
  rw [ends_attempt]
  rcases run_change_cases s c action with ⟨e, hrun⟩ | ⟨d, hd, hrun⟩
  · rw [hrun]
    exact hbad e
  · rw [hrun]
    exact hgood d hd

end Calls

end Session

end SharpMutants
