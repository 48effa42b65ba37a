import SharpMutants.Check.Checker

/-!
# What a check keeps as it goes

Checking an expression only adds to the state: findings, none of which is about a
method without a return, and assigned names, all of them names of locals in scope
(`Keeps`).  It leaves the names of the locals and the reachability as they are.  Each
operation on the state keeps that much, and but for an assignment the whole flow
(`Quiet`), so an expression does: `keeps_expression`.
-/

namespace SharpMutants

/-- The finding about a method without a return. -/
def Finding.lacksReturn : Finding → Bool
  | .missingReturn _ => true
  | _ => false

/-- A finding that lacks no return has another code. -/
theorem Finding.code_ne {f : Finding} (h : f.lacksReturn = false) : f.code ≠ "CS0161" := by
  cases f with
  | missingReturn method => cases h
  | _ => simp [Finding.code]

namespace Check

namespace State

/-- The names of the locals of the open scopes. -/
def names (s : State) : List (List String) :=
  s.scopes.map fun scope => scope.locals.map Local.name

/-- A name is that of a local in scope. -/
def HasLocal (s : State) (name : String) : Prop := ∃ ns ∈ s.names, name ∈ ns

end State

namespace Flow

/-- Assigning does not change whether a place is reached. -/
theorem reachable_assign (f : Flow) (name : String) : (f.assign name).reachable = f.reachable := by
  rw [assign]
  split <;> rfl

/-- A name that is assigned is assigned from then on. -/
theorem mem_assigned_assign {f : Flow} {name x : String} :
    x ∈ (f.assign name).assigned ↔ x = name ∨ x ∈ f.assigned := by
  rw [assign]
  split
  · rename_i h
    rw [List.contains_iff_mem] at h
    constructor
    · exact .inr
    · intro hx
      rcases hx with rfl | hx
      · exact h
      · exact hx
  · exact List.mem_cons

/-- A name that is declared without a value is not assigned. -/
theorem mem_assigned_unassign {f : Flow} {name x : String} :
    x ∈ (f.unassign name).assigned ↔ x ∈ f.assigned ∧ x ≠ name := by
  rw [unassign, List.mem_filter, bne_iff_ne]

/-- What is assigned where two ways meet is assigned on each that gets there. -/
theorem mem_assigned_join {f g : Flow} {x : String} (h : x ∈ (f.join g).assigned) :
    (f.reachable = true → x ∈ f.assigned) ∧ (g.reachable = true → x ∈ g.assigned) := by
  rw [join] at h
  cases hf : f.reachable with
  | false => simp_all
  | true =>
      cases hg : g.reachable with
      | false => simp_all
      | true =>
          simp only [hf, hg, Bool.not_true, Bool.false_eq_true, ↓reduceIte, List.mem_filter,
            List.contains_iff_mem] at h
          exact ⟨fun _ => h.1, fun _ => h.2⟩

/-- What is assigned behind two branches is assigned behind one of them. -/
theorem mem_of_mem_join {f g : Flow} {x : String} (h : x ∈ (f.join g).assigned) :
    x ∈ f.assigned ∨ x ∈ g.assigned := by
  rw [join] at h
  split at h
  · exact .inr h
  · split at h
    · exact .inl h
    · exact .inl (List.mem_filter.mp h).1

/-- A place behind two branches is reached if it is reached behind one of them. -/
theorem reachable_join (f g : Flow) :
    (f.join g).reachable = true ↔ f.reachable = true ∨ g.reachable = true := by
  rw [join]
  cases hf : f.reachable with
  | false => simp
  | true => cases hg : g.reachable <;> simp [hf]

end Flow

namespace Scope

variable {change : Local → Local} {name : String} {ty : Ty}

/-- A scope declares the names of its locals. -/
theorem declares_iff {s : Scope} : s.declares name = true ↔ name ∈ s.locals.map Local.name := by
  rw [declares, List.any_eq_true, List.mem_map]
  simp only [beq_iff_eq]

/-- No local is changed just if the list has none of the name. -/
theorem updateLocal?_eq_none (change : Local → Local) {ls : List Local} :
    updateLocal? change name ls = none ↔ name ∉ ls.map Local.name := by
  induction ls with
  | nil => simp [updateLocal?]
  | cons l ls ih =>
      rw [updateLocal?, List.map_cons, List.mem_cons, not_or, ← ih]
      by_cases h : l.name = name
      · simp [h]
      · simp [h, Ne.symm h]

/-- No local is changed just if no scope has one of the name. -/
theorem update?_eq_none {ss : List Scope} : update? change name ss = none ↔
    ∀ ns ∈ ss.map fun s => s.locals.map Local.name, name ∉ ns := by
  induction ss with
  | nil => simp [update?]
  | cons s ss ih =>
      rw [update?, List.map_cons, List.forall_mem_cons, ← ih,
        ← updateLocal?_eq_none change]
      cases updateLocal? change name s.locals with
      | none => simp
      | some found => simp

/-- Changing a local leaves the names as they are. -/
theorem names_updateLocal? (hchange : ∀ l, (change l).name = l.name) {ls ls' : List Local}
    (h : updateLocal? change name ls = some (ty, ls')) :
    ls'.map Local.name = ls.map Local.name := by
  induction ls generalizing ls' with
  | nil => cases h
  | cons l ls ih =>
      rw [updateLocal?] at h
      split at h
      · cases h
        rw [List.map_cons, List.map_cons, hchange]
      · rw [Option.map_eq_some_iff] at h
        obtain ⟨⟨_, rest⟩, hrest, heq⟩ := h
        cases heq
        rw [List.map_cons, List.map_cons, ih hrest]

/-- A change of a local that keeps its name keeps all names. -/
theorem names_update? (hchange : ∀ l, (change l).name = l.name) {ss ss' : List Scope}
    (h : update? change name ss = some (ty, ss')) :
    (ss'.map fun s => s.locals.map Local.name) = ss.map fun s => s.locals.map Local.name := by
  induction ss generalizing ss' with
  | nil => cases h
  | cons s ss ih =>
      rw [update?] at h
      split at h
      · rename_i hlocal
        cases h
        rw [List.map_cons, List.map_cons, names_updateLocal? hchange hlocal]
      · rw [Option.map_eq_some_iff] at h
        obtain ⟨⟨_, rest⟩, hrest, heq⟩ := h
        cases heq
        rw [List.map_cons, List.map_cons, ih hrest]

end Scope

/-- A local that is changed was there. -/
theorem hasLocal_of_update? {s : State} {change : Local → Local} {name : String}
    {found : Ty × List Scope} (h : Scope.update? change name s.scopes = some found) :
    s.HasLocal name := by
  by_cases hlocal : s.HasLocal name
  · exact hlocal
  · simp only [State.HasLocal, not_exists, not_and] at hlocal
    rw [Scope.update?_eq_none.mpr hlocal] at h
    cases h

/-- The findings of a state are those of another and later ones, none of them about a method
without a return. -/
def Adds (s s' : State) : Prop :=
  ∃ new, s'.findings = new ++ s.findings ∧ ∀ f ∈ new, f.1.code ≠ "CS0161"

namespace Adds

variable {s s' s'' : State}

theorem of_findings_eq (h : s'.findings = s.findings) : Adds s s' := ⟨[], h, by simp⟩

theorem refl (s : State) : Adds s s := of_findings_eq rfl

theorem trans (h : Adds s s') (h' : Adds s' s'') : Adds s s'' := by
  obtain ⟨new, heq, hnew⟩ := h
  obtain ⟨new', heq', hnew'⟩ := h'
  refine ⟨new' ++ new, by rw [heq', heq, List.append_assoc], fun f hf => ?_⟩
  rcases List.mem_append.mp hf with hf | hf
  · exact hnew' f hf
  · exact hnew f hf

/-- A report of something else adds no missing return. -/
theorem report (s : State) {finding : Finding} (site : Span) (h : finding.code ≠ "CS0161") :
    Adds s (s.report finding site) :=
  ⟨[(finding, site)], rfl, fun f hf => by rw [List.mem_singleton.mp hf]; exact h⟩

end Adds

/-- Steps for the entries of a list, one after another. -/
theorem foldl_steps {α σ : Type} {R : σ → σ → Prop} (refl : ∀ x, R x x)
    (trans : ∀ {x y z}, R x y → R y z → R x z) {op : σ → α → σ} (h : ∀ x a, R x (op x a)) (x : σ)
    (as : List α) : R x (as.foldl op x) := by
  induction as generalizing x with
  | nil => exact refl x
  | cons a as ih => exact trans (h x a) (ih (op x a))

/-- What an operation keeps that leaves the flow alone. -/
structure Quiet (s s' : State) : Prop where
  findings : Adds s s'
  names : s'.names = s.names
  flow : s'.flow = s.flow

namespace Quiet

variable {s s' s'' : State}

theorem refl (s : State) : Quiet s s := ⟨.refl s, rfl, rfl⟩

theorem trans (h : Quiet s s') (h' : Quiet s' s'') : Quiet s s'' :=
  ⟨h.findings.trans h'.findings, h'.names.trans h.names, h'.flow.trans h.flow⟩

/-- A report of something else is quiet. -/
theorem report (s : State) {finding : Finding} (site : Span) (h : finding.code ≠ "CS0161") :
    Quiet s (s.report finding site) :=
  ⟨.report s site h, rfl, rfl⟩

/-- A report of something else, if there is one, is quiet. -/
theorem reportIf (s : State) (test : Bool) {finding : Finding} (site : Span)
    (h : finding.code ≠ "CS0161") : Quiet s (s.reportIf test finding site) := by
  rw [State.reportIf]
  split
  · exact report s site h
  · exact refl s

/-- Converting a value is quiet. -/
theorem convert (s : State) (given wanted : Ty) (site : Span) :
    Quiet s (s.convert given wanted site) := by
  rw [State.convert]
  split
  · exact report s site (by decide)
  · exact reportIf s _ site (Finding.code_ne rfl)

/-- Reading a field or a parameter is quiet. -/
theorem nonLocal (env : Env) (s : State) (name : String) (site : Span) :
    Quiet s (s.nonLocal env name site).2 := by
  rw [State.nonLocal]
  split
  · exact refl s
  · split
    · exact refl s
    · exact report s site (Finding.code_ne rfl)

/-- Reading a name is quiet. -/
theorem read (env : Env) (s : State) (name : String) (site : Span) :
    Quiet s (s.read env name site).2 := by
  rw [State.read]
  split
  · rename_i scopes hupdate
    have hmark : Quiet s { s with scopes := scopes } :=
      ⟨.of_findings_eq rfl, Scope.names_update? (by intro l; rfl) hupdate, rfl⟩
    exact hmark.trans (reportIf _ _ site (Finding.code_ne rfl))
  · exact nonLocal env s name site

/-- Integer literals are quiet. -/
theorem integerLiteral (s : State) (text : String) (site : Span) :
    Quiet s (Check.integerLiteral s text site).2 := by
  rw [Check.integerLiteral]
  split
  · exact refl s
  · exact report s site (by decide)

/-- Binary operations are quiet. -/
theorem binaryOperation (s : State) (op : BinaryOp) (l r : Ty) (site : Span) (right : Tree) :
    Quiet s (Check.binaryOperation s op l r site right).2 := by
  rw [Check.binaryOperation]
  split
  · exact report s site (Finding.code_ne rfl)
  · exact reportIf s _ site (by decide)

/-- Unary operations are quiet. -/
theorem unaryOperation (s : State) (op : UnaryOp) (ty : Ty) (operand : Span) :
    Quiet s (Check.unaryOperation s op ty operand).2 := by
  unfold Check.unaryOperation
  extract_lets fits
  split
  · exact refl s
  · exact report s operand (Finding.code_ne rfl)

/-- Operations for the entries of a list keep what each of them keeps. -/
theorem foldl {α σ : Type} (state : σ → State) {op : σ → α → σ}
    (h : ∀ x a, Quiet (state x) (state (op x a))) (x : σ) (as : List α) :
    Quiet (state x) (state (as.foldl op x)) :=
  foldl_steps (R := fun x y => Quiet (state x) (state y)) (fun x => refl (state x)) trans h x as

/-- Calls of the console are quiet. -/
theorem consoleCall (s : State) (member : String) (site : Span) (args : List (Span × Ty)) :
    Quiet s (Check.consoleCall s member site args).2 := by
  have harguments : Quiet s (args.zipIdx.foldl
      (fun s a => s.reportIf (a.1.2 == .void) (.voidArgument (a.2 + 1)) a.1.1) s) :=
    foldl (fun s => s) (fun s _ => reportIf s _ _ (Finding.code_ne rfl)) s _
  have hcount : Quiet s (s.report (.argumentCount member args.length) site) :=
    report s site (Finding.code_ne rfl)
  rw [Check.consoleCall]
  dsimp only
  split
  · split
    · exact hcount
    · exact harguments
  · split
    · split
      · exact hcount
      · exact harguments
    · exact report s site (Finding.code_ne rfl)

/-- Calls of methods are quiet. -/
theorem methodCall (env : Env) (s : State) (callee : String) (site : Span)
    (args : List (Span × Ty)) : Quiet s (Check.methodCall env s callee site args).2 := by
  rw [Check.methodCall]
  dsimp only
  split
  · exact report s site (Finding.code_ne rfl)
  · split
    · exact report s site (Finding.code_ne rfl)
    · split
      · exact refl s
      · exact foldl (fun s => s) (fun s _ => reportIf s _ _ (Finding.code_ne rfl)) s _

/-- Calls are quiet. -/
theorem call (env : Env) (s : State) (callee : String) (site : Span) (args : List (Span × Ty)) :
    Quiet s (Check.call env s callee site args).2 := by
  rw [Check.call]
  split
  · exact methodCall env s callee site args
  · split
    · exact consoleCall s _ site args
    · exact report s site (Finding.code_ne rfl)

end Quiet

/-- What checking an expression keeps. -/
structure Keeps (s s' : State) : Prop where
  findings : Adds s s'
  names : s'.names = s.names
  reachable : s'.flow.reachable = s.flow.reachable
  grows : ∀ x ∈ s.flow.assigned, x ∈ s'.flow.assigned
  assigned : ∀ x ∈ s'.flow.assigned, x ∈ s.flow.assigned ∨ s.HasLocal x

/-- What is quiet keeps what is assigned, too. -/
theorem Quiet.keeps {s s' : State} (h : Quiet s s') : Keeps s s' where
  findings := h.findings
  names := h.names
  reachable := by rw [h.flow]
  grows x hx := by rwa [h.flow]
  assigned x hx := by
    rw [h.flow] at hx
    exact .inl hx

namespace Keeps

variable {s s' s'' : State} {name : String}

theorem refl (s : State) : Keeps s s := (Quiet.refl s).keeps

/-- The locals are the same when names are kept. -/
theorem hasLocal_iff (h : Keeps s s') : s'.HasLocal name ↔ s.HasLocal name := by
  rw [State.HasLocal, State.HasLocal, h.names]

/-- What two checks keep, they keep one after the other. -/
theorem trans (h : Keeps s s') (h' : Keeps s' s'') : Keeps s s'' where
  findings := h.findings.trans h'.findings
  names := h'.names.trans h.names
  reachable := h'.reachable.trans h.reachable
  grows x hx := h'.grows x (h.grows x hx)
  assigned x hx := by
    rcases h'.assigned x hx with hx | hx
    · exact h.assigned x hx
    · exact .inr (h.hasLocal_iff.mp hx)

/-- What is quiet behind a check that keeps the names keeps them. -/
theorem quiet (h : Keeps s s') (h' : Quiet s' s'') : Keeps s s'' := h.trans h'.keeps

/-- Writing to a name keeps the names. -/
theorem write (env : Env) (s : State) (name : String) (site : Span) :
    Keeps s (s.write env name site).2 := by
  rw [State.write]
  split
  · rename_i scopes hupdate
    have hlocal : s.HasLocal name := hasLocal_of_update? hupdate
    refine ⟨.of_findings_eq rfl, Scope.names_update? (by intro l; rfl) hupdate, ?_, ?_, ?_⟩
    · exact s.flow.reachable_assign name
    · intro x hx
      exact Flow.mem_assigned_assign.mpr (.inr hx)
    · intro x hx
      rcases Flow.mem_assigned_assign.mp hx with rfl | hx
      · exact .inr hlocal
      · exact .inl hx
  · exact (Quiet.nonLocal env s name site).keeps

/-- The right operand of a short circuit leaves no trace in the flow. -/
theorem shortcut (h : Keeps s s') : Keeps s { s' with flow := s.flow } :=
  ⟨h.findings, h.names, rfl, fun _ hx => hx, fun _ hx => .inl hx⟩

/-- Steps up and down keep the names. -/
theorem stepVariable (env : Env) (s : State) (op : UnaryOp) (name : String)
    (target operand : Span) : Keeps s (Check.stepVariable env s op name target operand).2 := by
  have hboth := (Quiet.read env s name target).keeps.trans (write env _ name target)
  rw [Check.stepVariable]
  dsimp only
  split
  · exact hboth.quiet (.report _ operand (Finding.code_ne rfl))
  · exact hboth

end Keeps

/-- Expressions one after another keep the names if each keeps them. -/
theorem keeps_expressions {env : Env} {ts : List Tree}
    (h : ∀ t ∈ ts, ∀ s, Keeps s (expression env s t).2) (s : State) :
    Keeps s (expressions env s ts).2 := by
  induction ts generalizing s with
  | nil =>
      rw [expressions]
      exact .refl s
  | cons t ts ih =>
      rw [List.forall_mem_cons] at h
      rw [expressions]
      exact (h.1 s).trans (ih h.2 _)

/-- **Checking an expression only adds to the state.** -/
theorem keeps_expression (env : Env) (s : State) (t : Tree) : Keeps s (expression env s t).2 := by
  induction t using Tree.inductionOn generalizing s with
  | node d cs ih =>
      rw [expression.eq_def]
      dsimp only
      split
      case h_1 value _ =>
        split
        · exact (Quiet.integerLiteral s _ _).keeps
        · exact .refl s
        · exact .refl s
        · exact .refl s
      case h_2 => exact (Quiet.read env s _ _).keeps
      case h_3 inner _ _ => exact ih inner List.mem_cons_self s
      case h_4 op left right _ =>
        have hleft := ih left List.mem_cons_self s
        have hright := ih right (by simp) (expression env s left).2
        refine Keeps.quiet ?_ (.binaryOperation _ op _ _ _ right)
        split
        · exact hleft.trans hright.shortcut
        · exact hleft.trans hright
      case h_5 op operand _ _ | h_6 op operand _ _ =>
        have hoperand := ih operand List.mem_cons_self s
        split
        · exact .refl s
        · split
          · split
            · exact .stepVariable env s op _ _ _
            · exact hoperand.quiet (.report _ _ (by decide))
          · exact hoperand.quiet (.unaryOperation _ op _ _)
      case h_7 op target value _ =>
        have hvalue := ih value (by simp)
        split
        · rename_i name _
          split
          · exact ((hvalue s).trans (.write env _ name _)).quiet (.convert _ _ _ _)
          · rename_i arithmetic _
            have hread := (Quiet.read env s name (unparenthesize target).span).keeps
            have hwritten := (hread.trans (hvalue _)).trans
              (.write env _ name (unparenthesize target).span)
            split
            · exact hwritten.quiet (.binaryOperation _ arithmetic _ _ _ value)
            · exact (hwritten.quiet (.binaryOperation _ arithmetic _ _ _ value)).quiet
                (.convert _ _ _ _)
        · exact ((ih target List.mem_cons_self s).trans (hvalue _)).quiet
            (.report _ _ (by decide))
      case h_8 callee _ => exact (keeps_expressions ih s).quiet (.call env _ callee _ _)
      case h_9 => exact .refl s

end Check
end SharpMutants
