import SharpMutants.Proofs.Check.Statements

/-!
# What a check finds about the names of locals

Of a state the rules about names look at the `Naming` only: the names in the open scopes
and what has been found about names that are taken.  Nothing but a declaration changes it
within a scope, so an expression does not: `naming_expression`.

A declaration joins its names to the innermost scope (`Binds`).  Something is found about
them unless they are `Fresh`: no two are the same, none is declared in the scope already
and none is `Taken` around it.  It is found at the declarators (`Places`).
-/

namespace SharpMutants

/-- The findings about a local whose name is taken. -/
def Finding.isClash : Finding → Bool
  | .duplicateLocal _ | .shadowingLocal _ => true
  | _ => false

/-- A clash is a name that is declared again in its scope, or around it. -/
theorem Finding.isClash_iff {f : Finding} :
    f.isClash = true ↔ f.code = "CS0128" ∨ f.code = "CS0136" := by
  cases f <;> simp [isClash, code]

namespace Check

/-- What the rules about names look at: for each open scope the names of its locals and those
that its block declares, and the findings about names that are taken. -/
@[ext]
structure Naming where
  scopes : List (List String × List String)
  clashes : List (Finding × Span)

namespace Scope

/-- The names of the locals of a scope and those that its block declares. -/
def outline (scope : Scope) : List String × List String :=
  (scope.locals.map Local.name, scope.reserved)

/-- A change of a local that keeps its name keeps the outlines. -/
theorem outline_update? {change : Local → Local} (hchange : ∀ l, (change l).name = l.name)
    {name : String} {ty : Ty} {ss ss' : List Scope} (h : update? change name ss = some (ty, ss')) :
    ss'.map outline = ss.map outline := by
  induction ss generalizing ss' with
  | nil => cases h
  | cons s ss ih =>
      rw [update?] at h
      split at h
      · rename_i hlocal
        cases h
        rw [List.map_cons, List.map_cons, outline, names_updateLocal? hchange hlocal, outline]
      · rw [Option.map_eq_some_iff] at h
        obtain ⟨⟨_, rest⟩, hrest, heq⟩ := h
        cases heq
        rw [List.map_cons, List.map_cons, ih hrest]

end Scope

namespace State

/-- The part of a state that the rules about names look at. -/
def naming (s : State) : Naming :=
  ⟨s.scopes.map Scope.outline, s.findings.filter fun f => f.1.isClash⟩

variable {s : State} {f : Finding}

/-- Where the flow goes does not matter for the names. -/
@[simp] theorem naming_withFlow (s : State) (flow : Flow) :
    ({ s with flow := flow } : State).naming = s.naming := rfl

/-- A report of something else is no clash. -/
@[simp] theorem naming_report (h : f.isClash = false) (site : Span) :
    (s.report f site).naming = s.naming := by
  simp [naming, report, h]

/-- A report of something else, if there is one, is no clash. -/
@[simp] theorem naming_reportIf (h : f.isClash = false) (test : Bool) (site : Span) :
    (s.reportIf test f site).naming = s.naming := by
  rw [reportIf]
  split
  · exact naming_report h site
  · rfl

@[simp] theorem naming_convert (given wanted : Ty) (site : Span) :
    (s.convert given wanted site).naming = s.naming := by
  rw [convert]
  split
  · exact naming_report rfl site
  · exact naming_reportIf rfl _ site

/-- Reading a field or a parameter declares nothing. -/
@[simp] theorem naming_nonLocal (env : Env) (name : String) (site : Span) :
    (s.nonLocal env name site).2.naming = s.naming := by
  rw [nonLocal]
  split
  · rfl
  · split
    · rfl
    · exact naming_report rfl site

/-- Changing a local but for its name declares nothing. -/
theorem naming_update? {change : Local → Local} (hchange : ∀ l, (change l).name = l.name)
    {name : String} {ty : Ty} {scopes : List Scope}
    (h : Scope.update? change name s.scopes = some (ty, scopes)) :
    ({ s with scopes := scopes } : State).naming = s.naming := by
  rw [naming, naming, Scope.outline_update? hchange h]

/-- Reading a name declares nothing. -/
@[simp] theorem naming_read (env : Env) (name : String) (site : Span) :
    (s.read env name site).2.naming = s.naming := by
  rw [read]
  split
  · rename_i hupdate
    dsimp only
    rw [naming_reportIf rfl, naming_update? (by intro l; rfl) hupdate]
  · exact naming_nonLocal env name site

/-- Writing to a name declares nothing. -/
@[simp] theorem naming_write (env : Env) (name : String) (site : Span) :
    (s.write env name site).2.naming = s.naming := by
  rw [write]
  split
  · rename_i hupdate
    exact naming_update? (by intro l; rfl) hupdate
  · exact naming_nonLocal env name site

/-- Operations for the entries of a list leave alone what each of them does. -/
theorem naming_foldl {α : Type} {op : State → α → State}
    (h : ∀ s a, (op s a).naming = s.naming) (s : State) (as : List α) :
    (as.foldl op s).naming = s.naming :=
  foldl_steps (R := fun s s' : State => s'.naming = s.naming) (fun _ => rfl)
    (fun h h' => h'.trans h) h s as

/-- Closing a scope drops its names. -/
theorem naming_closeScope (s : State) :
    s.closeScope.naming = ⟨s.naming.scopes.tail, s.naming.clashes⟩ := by
  have hunused : ∀ (s : State) (l : Local), (s.reportUnused l).naming = s.naming := by
    intro s l
    rw [reportUnused]
    split
    · rfl
    · exact naming_report (by split <;> rfl) _
  rw [closeScope]
  split
  · rename_i hscopes
    rw [naming, hscopes]
    rfl
  · rename_i scope rest hscopes
    rw [naming_foldl hunused, naming, naming, hscopes]
    rfl

end State

variable {s : State}

/-! ## Expressions -/

/-- Integer literals declare nothing. -/
@[simp] theorem naming_integerLiteral (text : String) (site : Span) :
    (integerLiteral s text site).2.naming = s.naming := by
  rw [integerLiteral]
  split
  · rfl
  · exact State.naming_report rfl site

/-- Binary operations declare nothing. -/
@[simp] theorem naming_binaryOperation (op : BinaryOp) (l r : Ty) (site : Span) (right : Tree) :
    (binaryOperation s op l r site right).2.naming = s.naming := by
  rw [binaryOperation]
  split
  · exact State.naming_report rfl site
  · exact State.naming_reportIf rfl _ site

/-- Unary operations declare nothing. -/
@[simp] theorem naming_unaryOperation (op : UnaryOp) (ty : Ty) (operand : Span) :
    (unaryOperation s op ty operand).2.naming = s.naming := by
  unfold unaryOperation
  extract_lets fits
  split
  · rfl
  · exact State.naming_report rfl operand

/-- Steps up and down declare nothing. -/
@[simp] theorem naming_stepVariable (env : Env) (op : UnaryOp) (name : String)
    (target operand : Span) :
    (stepVariable env s op name target operand).2.naming = s.naming := by
  rw [stepVariable]
  dsimp only
  split
  · rw [State.naming_report rfl, State.naming_write, State.naming_read]
  · rw [State.naming_write, State.naming_read]

/-- Calls of the console declare nothing. -/
theorem naming_consoleCall (member : String) (site : Span) (args : List (Span × Ty)) :
    (consoleCall s member site args).2.naming = s.naming := by
  have harguments : (args.zipIdx.foldl
      (fun s a => s.reportIf (a.1.2 == .void) (.voidArgument (a.2 + 1)) a.1.1) s).naming =
        s.naming :=
    State.naming_foldl (fun _ _ => State.naming_reportIf rfl _ _) s _
  have hcount : (s.report (.argumentCount member args.length) site).naming = s.naming :=
    State.naming_report rfl site
  rw [consoleCall]
  dsimp only
  split
  · split
    · exact hcount
    · exact harguments
  · split
    · split
      · exact hcount
      · exact harguments
    · exact State.naming_report rfl site

/-- Calls of methods declare nothing. -/
theorem naming_methodCall (env : Env) (callee : String) (site : Span)
    (args : List (Span × Ty)) : (methodCall env s callee site args).2.naming = s.naming := by
  rw [methodCall]
  dsimp only
  split
  · exact State.naming_report rfl site
  · split
    · exact State.naming_report rfl site
    · split
      · rfl
      · exact State.naming_foldl (fun _ _ => State.naming_reportIf rfl _ _) s _

/-- Calls declare nothing. -/
@[simp] theorem naming_call (env : Env) (callee : String) (site : Span)
    (args : List (Span × Ty)) : (call env s callee site args).2.naming = s.naming := by
  rw [call]
  split
  · exact naming_methodCall env callee site args
  · split
    · exact naming_consoleCall _ site args
    · exact State.naming_report rfl site

/-- Expressions one after another declare nothing if each declares nothing. -/
theorem naming_expressions {env : Env} {ts : List Tree}
    (h : ∀ t ∈ ts, ∀ s, (expression env s t).2.naming = s.naming) (s : State) :
    (expressions env s ts).2.naming = s.naming := by
  induction ts generalizing s with
  | nil => rw [expressions]
  | cons t ts ih =>
      rw [List.forall_mem_cons] at h
      rw [expressions]
      exact (ih h.2 _).trans (h.1 s)

/-- **An expression has no bearing on the rules about names.** -/
@[simp] theorem naming_expression (env : Env) (s : State) (t : Tree) :
    (expression env s t).2.naming = s.naming := by
  induction t using Tree.inductionOn generalizing s with
  | node d cs ih =>
      rw [expression.eq_def]
      dsimp only
      split
      case h_1 value _ =>
        split
        · exact naming_integerLiteral _ _
        · rfl
        · rfl
        · rfl
      case h_2 => exact State.naming_read env _ _
      case h_3 inner _ _ => exact ih inner List.mem_cons_self s
      case h_4 op left right _ =>
        have hleft := ih left List.mem_cons_self
        have hright := ih right (by simp)
        split <;> simp [hleft, hright]
      case h_5 op operand _ _ | h_6 op operand _ _ =>
        have hoperand := ih operand List.mem_cons_self
        split
        · rfl
        · split
          · split
            · exact naming_stepVariable env op _ _ _
            · rw [State.naming_report rfl, hoperand]
          · simp [hoperand]
      case h_7 op target value _ =>
        have htarget := ih target List.mem_cons_self
        have hvalue := ih value (by simp)
        split
        · split
          · simp [hvalue]
          · split <;> simp [hvalue]
        · rw [State.naming_report rfl, hvalue, htarget]
      case h_8 callee _ => rw [naming_call, naming_expressions ih]
      case h_9 => rfl

/-! ## Declarations -/

/-- A name is that of a parameter, or one that some scopes have or reserve. -/
def Taken (env : Env) (scopes : List (List String × List String)) (x : String) : Prop :=
  (typeIn? env.parameters x).isSome = true ∨ ∃ o ∈ scopes, x ∈ o.1 ∨ x ∈ o.2

/-- Names that may be declared in a scope with certain names, and others around it. -/
structure Fresh (env : Env) (here : List String) (outer : List (List String × List String))
    (names : List String) : Prop where
  nodup : names.Nodup
  not_here : ∀ x ∈ names, x ∉ here
  not_taken : ∀ x ∈ names, ¬Taken env outer x

section Fresh

variable {env : Env} {here here' names names' : List String} {name : String}
  {outer : List (List String × List String)}

theorem fresh_nil : Fresh env here outer [] := ⟨.nil, by simp, by simp⟩

/-- One name is fresh in a scope if it is not in it and not taken around it. -/
theorem fresh_singleton : Fresh env here outer [name] ↔ name ∉ here ∧ ¬Taken env outer name := by
  constructor
  · intro h
    exact ⟨h.not_here name List.mem_cons_self, h.not_taken name List.mem_cons_self⟩
  · intro ⟨hhere, htaken⟩
    refine ⟨List.nodup_singleton name, ?_, ?_⟩
    · simpa using hhere
    · simpa using htaken

/-- Names may be declared after others if these have joined the scope. -/
theorem fresh_append (hhere : ∀ x, x ∈ here' ↔ x ∈ names ∨ x ∈ here) :
    Fresh env here outer (names ++ names') ↔
      Fresh env here outer names ∧ Fresh env here' outer names' := by
  constructor
  · intro h
    obtain ⟨hfirst, hlater, hapart⟩ := List.nodup_append.mp h.nodup
    refine ⟨⟨hfirst, ?_, ?_⟩, ⟨hlater, ?_, ?_⟩⟩
    · exact fun x hx => h.not_here x (List.mem_append_left _ hx)
    · exact fun x hx => h.not_taken x (List.mem_append_left _ hx)
    · intro x hx hmem
      rcases (hhere x).mp hmem with hmem | hmem
      · exact hapart x hmem x hx rfl
      · exact h.not_here x (List.mem_append_right _ hx) hmem
    · exact fun x hx => h.not_taken x (List.mem_append_right _ hx)
  · intro ⟨hfirst, hlater⟩
    have hnot : ∀ x ∈ names', x ∉ names ∧ x ∉ here := by
      intro x hx
      have := hlater.not_here x hx
      rwa [hhere, not_or] at this
    refine ⟨List.nodup_append.mpr ⟨hfirst.nodup, hlater.nodup, ?_⟩, ?_, ?_⟩
    · rintro x hx y hy rfl
      exact (hnot x hy).1 hx
    · intro x hx
      rcases List.mem_append.mp hx with hx | hx
      · exact hfirst.not_here x hx
      · exact (hnot x hx).2
    · intro x hx
      rcases List.mem_append.mp hx with hx | hx
      · exact hfirst.not_taken x hx
      · exact hlater.not_taken x hx

end Fresh

/-- Something is found about names unless all is fine. -/
def Finds (fine : Prop) (v v' : Naming) : Prop :=
  ∃ new, v'.clashes = new ++ v.clashes ∧ (new = [] ↔ fine)

namespace Finds

variable {fine fine' : Prop} {v v' v'' : Naming}

theorem of_clashes_eq (h : v'.clashes = v.clashes) (hfine : fine) : Finds fine v v' :=
  ⟨[], h, iff_of_true rfl hfine⟩

/-- A new clash is found where something is not fine. -/
theorem single {f : Finding × Span} (h : v'.clashes = f :: v.clashes) (hfine : ¬fine) :
    Finds fine v v' :=
  ⟨[f], h, iff_of_false (List.cons_ne_nil f []) hfine⟩

theorem trans (h : Finds fine v v') (h' : Finds fine' v' v'') : Finds (fine ∧ fine') v v'' := by
  obtain ⟨new, heq, hnew⟩ := h
  obtain ⟨new', heq', hnew'⟩ := h'
  refine ⟨new' ++ new, by rw [heq', heq, List.append_assoc], ?_⟩
  rw [List.append_eq_nil_iff, hnew, hnew', and_comm]

/-- Whether something is fine may be told otherwise. -/
theorem congr (h : Finds fine v v') (hfine : fine ↔ fine') : Finds fine' v v' := by
  rwa [← propext hfine]

end Finds

/-- What is found about names is found at certain nodes. -/
def Places (us : List Tree) (v v' : Naming) : Prop :=
  ∃ new, v'.clashes = new ++ v.clashes ∧ ∀ f ∈ new, ∃ u ∈ us, u.span = f.2

namespace Places

variable {us us' : List Tree} {v v' v'' : Naming}

theorem of_clashes_eq (h : v'.clashes = v.clashes) : Places us v v' := ⟨[], h, by simp⟩

/-- A new clash is placed at a node of its span. -/
theorem single {f : Finding × Span} (h : v'.clashes = f :: v.clashes)
    (hus : ∃ u ∈ us, u.span = f.2) : Places us v v' := by
  refine ⟨[f], h, ?_⟩
  intro g hg
  rwa [List.mem_singleton.mp hg]

theorem trans (h : Places us v v') (h' : Places us v' v'') : Places us v v'' := by
  obtain ⟨new, heq, hspans⟩ := h
  obtain ⟨new', heq', hspans'⟩ := h'
  refine ⟨new' ++ new, by rw [heq', heq, List.append_assoc], ?_⟩
  intro f hf
  rcases List.mem_append.mp hf with hf | hf
  · exact hspans' f hf
  · exact hspans f hf

theorem mono (h : Places us v v') (hus : us ⊆ us') : Places us' v v' := by
  obtain ⟨new, heq, hspans⟩ := h
  refine ⟨new, heq, ?_⟩
  intro f hf
  obtain ⟨u, hu, hspan⟩ := hspans f hf
  exact ⟨u, hus hu, hspan⟩

/-- A declaration is where something is found about it. -/
theorem declare (env : Env) (s : State) (name : String) (type : Ty) (t : Tree)
    (initialized : Bool) :
    Places [t] s.naming (s.declare env name type t.span initialized).naming := by
  have hsite : ∃ u ∈ [t], u.span = t.span := ⟨t, List.mem_singleton_self t, rfl⟩
  unfold State.declare
  split
  · exact .of_clashes_eq rfl
  · dsimp only
    split
    · exact .single rfl hsite
    · rw [State.reportIf]
      split
      · exact .single rfl hsite
      · exact .of_clashes_eq rfl

end Places

/-- A declarator adds its name to those behind it. -/
theorem declaratorNames_declarator {t : Tree} {name : String}
    (hkind : t.kind = .variableDeclarator name) (ts : List Tree) :
    declaratorNames (t :: ts) = name :: declaratorNames ts := by
  rw [declaratorNames, List.filterMap_cons, hkind]
  rfl

/-- What is no declarator declares no name. -/
theorem declaratorNames_other {t : Tree} (hkind : ∀ name, t.kind ≠ .variableDeclarator name)
    (ts : List Tree) : declaratorNames (t :: ts) = declaratorNames ts := by
  rw [declaratorNames, List.filterMap_cons_none, declaratorNames]
  split
  · exact absurd ‹_› (hkind _)
  · rfl

/-- Checking declarators passes over other nodes. -/
theorem declarators_other {t : Tree} (hkind : ∀ name, t.kind ≠ .variableDeclarator name)
    (env : Env) (type : Ty) (s : State) (ts : List Tree) :
    declarators env type s (t :: ts) = declarators env type s ts := by
  rw [declarators]
  split
  · exact absurd ‹_› (hkind _)
  · rfl

/-- Names join the innermost scope; something is found unless they are fresh. -/
def Binds (env : Env) (names : List String) (v v' : Naming) : Prop :=
  ∀ here reserved outer, v.scopes = (here, reserved) :: outer →
    ∃ here', v'.scopes = (here', reserved) :: outer ∧
      (∀ x, x ∈ here' ↔ x ∈ names ∨ x ∈ here) ∧ Finds (Fresh env here outer names) v v'

namespace Binds

variable {env : Env} {names names' : List String} {v v' v'' : Naming}

theorem refl (env : Env) (v : Naming) : Binds env [] v v :=
  fun here _ _ hv => ⟨here, hv, by simp, .of_clashes_eq rfl fresh_nil⟩

/-- Names that are bound one after another are bound together. -/
theorem trans (h : Binds env names v v') (h' : Binds env names' v' v'') :
    Binds env (names ++ names') v v'' := by
  intro here reserved outer hv
  obtain ⟨here', hv', hhere', hfinds⟩ := h here reserved outer hv
  obtain ⟨here'', hv'', hhere'', hfinds'⟩ := h' here' reserved outer hv'
  refine ⟨here'', hv'', ?_, (hfinds.trans hfinds').congr (fresh_append hhere').symm⟩
  intro x
  rw [hhere'', hhere', List.mem_append, ← or_assoc, or_comm (a := x ∈ names')]

/-- A local joins the innermost scope. -/
theorem declare (env : Env) (s : State) (name : String) (type : Ty) (site : Span)
    (initialized : Bool) :
    Binds env [name] s.naming (s.declare env name type site initialized).naming := by
  intro here reserved outer hs
  obtain ⟨scopes, flow, findings⟩ := s
  cases scopes with
  | nil => cases hs
  | cons scope rest =>
      obtain ⟨houtline, rfl⟩ := List.cons.inj hs
      obtain ⟨rfl, rfl⟩ := Prod.mk.inj houtline
      have htaken : ((typeIn? env.parameters name).isSome ||
          rest.any fun o => o.declares name || o.reserved.contains name) = true ↔
            Taken env (rest.map Scope.outline) name := by
        rw [Bool.or_eq_true, List.any_eq_true, Taken]
        apply or_congr_right
        simp only [List.mem_map, exists_exists_and_eq_and, Bool.or_eq_true, Scope.declares_iff,
          List.contains_iff_mem, Scope.outline]
      rw [State.declare]
      dsimp only
      rw [fresh_singleton]
      by_cases hhere : name ∈ scope.locals.map Local.name
      · rw [if_pos (Scope.declares_iff.mpr hhere)]
        refine ⟨_, rfl, ?_, .single rfl fun h => h.1 hhere⟩
        intro x
        rw [List.mem_singleton]
        exact (or_iff_right_of_imp fun hx => hx ▸ hhere).symm
      · rw [if_neg fun h => hhere (Scope.declares_iff.mp h)]
        refine ⟨name :: scope.locals.map Local.name, rfl, ?_, ?_⟩
        · intro x
          rw [List.mem_cons, List.mem_singleton]
        · rw [State.reportIf]
          split
          · rename_i hshadows
            exact .single rfl fun h => h.2 (htaken.mp hshadows)
          · rename_i hshadows
            exact .of_clashes_eq rfl ⟨hhere, fun h => hshadows (htaken.mpr h)⟩

end Binds

/-- A declarator joins its local to the innermost scope, whether it has an initializer or not. -/
theorem exists_declared (env : Env) (type : Ty) (s : State) {t : Tree} {name : String}
    (hkind : t.kind = .variableDeclarator name) (ts : List Tree) :
    ∃ s', declarators env type s (t :: ts) = declarators env type s' ts ∧
      Binds env [name] s.naming s'.naming ∧ Places [t] s.naming s'.naming := by
  rw [declarators, hkind]
  dsimp only
  cases t.children with
  | cons init rest =>
      let converted := (expression env s init).2.convert (expression env s init).1 type init.span
      have hbinds := Binds.declare env converted name type t.span true
      have hplaces := Places.declare env converted name type t true
      rw [State.naming_convert, naming_expression] at hbinds hplaces
      exact ⟨_, rfl, hbinds, hplaces⟩
  | nil => exact ⟨_, rfl, .declare env s name type t.span false, .declare env s name type t false⟩

/-- **Declarators bind their names**, and clashes are placed at them. -/
theorem binds_declarators (env : Env) (type : Ty) (s : State) (ts : List Tree) :
    Binds env (declaratorNames ts) s.naming (declarators env type s ts).naming ∧
      Places ts s.naming (declarators env type s ts).naming := by
  induction ts generalizing s with
  | nil => exact ⟨.refl env s.naming, .of_clashes_eq rfl⟩
  | cons t ts ih =>
      have hplaces : ∀ s, Places (t :: ts) s.naming (declarators env type s ts).naming := fun s =>
        (ih s).2.mono (List.subset_cons_self t ts)
      by_cases hkind : ∃ name, t.kind = .variableDeclarator name
      · obtain ⟨name, hname⟩ := hkind
        obtain ⟨s', heq, hbinds, hplaced⟩ := exists_declared env type s hname ts
        rw [heq, declaratorNames_declarator hname]
        exact ⟨hbinds.trans (ih s').1, (hplaced.mono (by simp)).trans (hplaces s')⟩
      · have hother : ∀ name, t.kind ≠ .variableDeclarator name := fun name hname =>
          hkind ⟨name, hname⟩
        rw [declarators_other hother, declaratorNames_other hother]
        exact ⟨(ih s).1, hplaces s⟩

end Check
end SharpMutants
