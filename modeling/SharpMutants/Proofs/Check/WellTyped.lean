import SharpMutants.Proofs.Check.Expressions

/-!
# A silent check types statements

What a check knows of the locals behind a statement is what the typing rules put into the
context there (`Context.after`).  So a statement that is checked in silence is well typed
(`Sound`): the conditions, initializers and results in it are typed by the checks of their
expressions, and a declaration that is not refused adds its variables to the context.  Main
statement: `sound_statement`.
-/

namespace SharpMutants

namespace Typing.Context

variable {Γ : Context} {env : Check.Env}

theorem declare_nil (Γ : Context) : Γ.declare [] = Γ := by
  rw [declare]
  split
  · rfl
  · rename_i hlocals
    cases Γ
    cases hlocals
    rfl

/-- Variables that are declared one after another are declared together. -/
theorem declare_append (Γ : Context) (vs ws : List (String × TypeName)) :
    Γ.declare (vs ++ ws) = (Γ.declare vs).declare ws := by
  cases hlocals : Γ.locals with
  | nil => simp [declare, hlocals]
  | cons scope outer => simp [declare, hlocals]

/-- Declaring variables changes the innermost scope only. -/
theorem tail_declare (Γ : Context) (vs : List (String × TypeName)) :
    (Γ.declare vs).locals.tail = Γ.locals.tail := by
  cases hlocals : Γ.locals with
  | nil => simp [declare, hlocals]
  | cons scope outer => simp [declare, hlocals]

/-- Statements one after another change the innermost scope only. -/
theorem tail_afterAll (Γ : Context) (ts : List Tree) :
    (Γ.afterAll ts).locals.tail = Γ.locals.tail := by
  induction ts generalizing Γ with
  | nil => rfl
  | cons t ts ih => exact (ih (Γ.after t)).trans (Γ.tail_declare _)

/-- An environment that suits a context suits it within a scope. -/
theorem Suits.enter (h : Γ.Suits env) : Γ.enter.Suits env :=
  ⟨h.fields, h.methods, h.parameters, h.result⟩

/-- An environment that suits a context suits it with more locals. -/
theorem Suits.declare (h : Γ.Suits env) (vs : List (String × TypeName)) :
    (Γ.declare vs).Suits env := by
  rw [Context.declare]
  split
  · exact h
  · exact ⟨h.fields, h.methods, h.parameters, h.result⟩

theorem tail_types (Γ : Context) : Γ.types.tail = Γ.locals.tail.map (List.map typed) := by
  rw [types, List.map_tail]

end Typing.Context

namespace Check

open Typing

variable {Γ : Context} {env : Env} {s : State} {d e : Node} {cs : List Tree}

/-! ## Declarations -/

/-- A declaration that is not refused adds its variable to the context. -/
theorem Silent.declare {name : String} {type : TypeName} {site : Span} {initialized : Bool}
    (htypes : s.types = Γ.types)
    (hs : Silent s (s.declare env name (Ty.ofName type) site initialized)) :
    (s.declare env name (Ty.ofName type) site initialized).types =
      (Γ.declare [(name, type)]).types := by
  rw [State.types, Context.types] at htypes
  unfold State.declare at hs ⊢
  cases hscopes : s.scopes with
  | nil =>
      rw [hscopes] at htypes
      have hlocals : Γ.locals = [] := by
        rwa [List.map_nil, eq_comm, List.map_eq_nil_iff] at htypes
      simp [State.types, Context.types, Context.declare, hscopes, hlocals]
  | cons scope outer =>
      rw [hscopes] at hs htypes
      dsimp only at hs ⊢
      split at hs
      · exact absurd hs (not_report rfl)
      · rename_i hhere
        rw [if_neg hhere]
        obtain ⟨frame, frames, hlocals, hframe, hframes⟩ := List.map_eq_cons_iff.mp htypes.symm
        simp [State.types, Context.types, Context.declare, hlocals, ← hframe, ← hframes, typed]

/-- A declarator declares its name with the type. -/
theorem ofType_cons {type : TypeName} {t : Tree} {name : String}
    (hkind : t.kind = .variableDeclarator name) (ts : List Tree) :
    ofType type (t :: ts) = (name, type) :: ofType type ts := by
  rw [ofType, declaratorNames, List.filterMap_cons]
  simp only [hkind]
  rfl

/-- Checking declarators only adds findings. -/
theorem suffix_declarators (env : Env) (type : Ty) (s : State) (ts : List Tree) :
    s.findings <:+ (declarators env type s ts).findings :=
  (Passes.declarators env type ts s (Tree.map_snd_numberFrom 0 ts)).findings.suffix

/-- The first of some declarators converts its initializer and declares its variable. -/
theorem sound_declarator {type : TypeName} {t : Tree} (h : Conforms .variableDeclarator t)
    (hΓ : Γ.Suits env) (htypes : s.types = Γ.types) (ts : List Tree)
    (hs : Silent s (declarators env (Ty.ofName type) s (t :: ts))) :
    ∃ name s', t.kind = .variableDeclarator name ∧
      declarators env (Ty.ofName type) s (t :: ts) = declarators env (Ty.ofName type) s' ts ∧
      s'.types = (Γ.declare [(name, type)]).types ∧
      Silent s' (declarators env (Ty.ofName type) s' ts) ∧
      ∀ init ∈ t.children, ∃ a, HasType Γ init a ∧ Converts a (Ty.ofName type) := by
  obtain ⟨d, name, hkind, rfl | ⟨init, rfl, hinit⟩⟩ := h.declarator
  · obtain ⟨past, hpast⟩ : ∃ past, past = s.declare env name (Ty.ofName type) d.span false :=
      ⟨_, rfl⟩
    have heq : declarators env (Ty.ofName type) s (.node d [] :: ts) =
        declarators env (Ty.ofName type) { past with flow := past.flow.unassign name } ts := by
      rw [declarators, Tree.kind, Tree.root, hkind, hpast]
      rfl
    have hdeclared : s.findings <:+
        ({ past with flow := past.flow.unassign name } : State).findings := by
      rw [hpast]
      exact (State.declare_eq env s name (Ty.ofName type) d.span false).1.suffix
    rw [heq] at hs
    obtain ⟨hdeclare, hrest⟩ := hs.split hdeclared (suffix_declarators env _ _ ts)
    rw [hpast] at hdeclare
    refine ⟨name, _, hkind, heq, ?_, hrest, fun init hinit => absurd hinit List.not_mem_nil⟩
    rw [hpast]
    exact hdeclare.declare htypes
  · obtain ⟨given, hgiven⟩ : ∃ given, given = expression env s init := ⟨_, rfl⟩
    obtain ⟨converted, hconverted⟩ : ∃ converted,
        converted = given.2.convert given.1 (Ty.ofName type) init.span := ⟨_, rfl⟩
    obtain ⟨past, hpast⟩ : ∃ past,
        past = converted.declare env name (Ty.ofName type) d.span true := ⟨_, rfl⟩
    have heq : declarators env (Ty.ofName type) s (.node d [init] :: ts) =
        declarators env (Ty.ofName type) { past with flow := past.flow.assign name } ts := by
      rw [declarators, Tree.kind, Tree.root, hkind, hpast, hconverted, hgiven]
      rfl
    have hevaluated : s.findings <:+ given.2.findings := by
      rw [hgiven]
      exact suffix_expression env s init
    have hfitted : given.2.findings <:+ converted.findings := by
      rw [hconverted]
      exact (Quiet.convert _ _ _ _).findings.suffix
    have hdeclared : converted.findings <:+
        ({ past with flow := past.flow.assign name } : State).findings := by
      rw [hpast]
      exact (State.declare_eq env converted name (Ty.ofName type) d.span true).1.suffix
    rw [heq] at hs
    obtain ⟨hs, hrest⟩ := hs.split ((hevaluated.trans hfitted).trans hdeclared)
      (suffix_declarators env _ _ ts)
    obtain ⟨hs, hdeclare⟩ := hs.split (hevaluated.trans hfitted) hdeclared
    obtain ⟨hs, hconvert⟩ := hs.split hevaluated hfitted
    rw [hgiven] at hs
    obtain ⟨htyped, hsame⟩ := typed_expression hΓ hinit s htypes hs
    rw [← hgiven] at htyped hsame
    rw [hconverted] at hconvert
    obtain ⟨hstate, hconverts⟩ := hconvert.convert htyped.ne_unknown (ofName_ne_unknown type)
    rw [← hconverted] at hstate
    have htypes' : converted.types = Γ.types := by rw [hstate, hsame, htypes]
    rw [hpast] at hdeclare
    refine ⟨name, _, hkind, heq, ?_, hrest, ?_⟩
    · rw [hpast]
      exact hdeclare.declare htypes'
    · intro other hother
      obtain rfl := List.mem_singleton.mp hother
      exact ⟨given.1, htyped, hconverts⟩

/-- The initializers of declarators that are checked in silence convert to the type, and the
variables are those that the declarators declare. -/
theorem sound_declarators {type : TypeName} {ts : List Tree}
    (h : ∀ t ∈ ts, Conforms .variableDeclarator t) (hΓ : Γ.Suits env) (htypes : s.types = Γ.types)
    (hs : Silent s (declarators env (Ty.ofName type) s ts)) :
    (∀ (before : List Tree) (c : Tree) (behind : List Tree), ts = before ++ c :: behind →
      ∀ init ∈ c.children, ∃ a, HasType (Γ.declare (ofType type before)) init a ∧ Converts a (Ty.ofName type)) ∧
      (declarators env (Ty.ofName type) s ts).types = (Γ.declare (ofType type ts)).types := by
  induction ts generalizing s Γ with
  | nil =>
      refine ⟨?_, ?_⟩
      · intro before c behind heq
        simp at heq
      · rw [declarators, htypes]
        exact congrArg Context.types Γ.declare_nil.symm
  | cons t ts ih =>
      rw [List.forall_mem_cons] at h
      obtain ⟨name, s', hkind, heq, htypes', hs', hinit⟩ := sound_declarator h.1 hΓ htypes ts hs
      obtain ⟨hrest, hall⟩ := ih h.2 (hΓ.declare _) htypes' hs'
      have hname : ∀ ts, ofType type (t :: ts) = [(name, type)] ++ ofType type ts :=
        ofType_cons hkind
      refine ⟨?_, ?_⟩
      · intro before c behind hsplit
        cases before with
        | nil =>
            obtain ⟨rfl, -⟩ := List.cons.inj hsplit
            rw [ofType, declaratorNames, List.filterMap_nil, List.map_nil, Context.declare_nil]
            exact hinit
        | cons t' before =>
            obtain ⟨rfl, hrests⟩ := List.cons.inj hsplit
            rw [hname, Context.declare_append]
            exact hrest before c behind hrests
      · rw [heq, hname, Context.declare_append]
        exact hall

/-- **A declaration that is checked silently** is well typed. -/
theorem sound_declaration {t : Tree} (h : Conforms .variableDeclaration t) (hΓ : Γ.Suits env)
    (htypes : s.types = Γ.types) (hs : Silent s (declaration env s t)) :
    Declares Γ t ∧ (declaration env s t).types = (Γ.declare (declared t)).types := by
  obtain ⟨type, hkind, hdeclarators⟩ := h.declaration
  have heq : declaration env s t = declarators env (Ty.ofName type) s t.children := by
    rw [declaration, hkind]
  have hdeclared : declared t = ofType type t.children := by
    rw [declared, hkind]
  rw [heq] at hs ⊢
  obtain ⟨hinits, hall⟩ := sound_declarators hdeclarators hΓ htypes hs
  rw [hdeclared]
  exact ⟨⟨type, hkind, hinits⟩, hall⟩

/-! ## Statements -/

/-- A statement is well typed if its check is silent, and then the check knows the locals that
are in the context behind it. -/
def Sound (t : Tree) : Prop :=
  ∀ (Γ : Context) (env : Env) (s : State), Γ.Suits env → s.types = Γ.types →
    Silent s (statement env s t) →
      WellTyped Γ t ∧ (statement env s t).types = (Γ.after t).types

section Added

variable {t cond body other : Tree}

/-- Other statements add no variables. -/
theorem added_other {d : Node} (hkind : Execution.addsLocals d.kind = false) (cs : List Tree) :
    added (.node d cs) = [] := by
  rw [added.eq_def]
  dsimp only
  split
  · simp_all [Execution.addsLocals]
  · simp_all [Execution.addsLocals]
  · simp_all [Execution.addsLocals]
  · rfl

/-- Other statements leave the context as it is. -/
theorem after_other {d : Node} (hkind : Execution.addsLocals d.kind = false) (Γ : Context)
    (cs : List Tree) : Γ.after (.node d cs) = Γ := by
  rw [Context.after, added_other hkind, Context.declare_nil]

/-- A declaration adds what it declares. -/
theorem added_declaration (hkind : d.kind = .localDeclaration) :
    added (.node d [t]) = declared t := by
  cases d
  cases hkind
  rfl

/-- An `if` adds what its branch adds. -/
theorem added_ifThen (hkind : d.kind = .ifStatement) :
    added (.node d [cond, body]) = added body := by
  cases d
  cases hkind
  exact List.append_nil _

/-- An `if` with two branches adds what both add. -/
theorem added_ifElse (hkind : d.kind = .ifStatement) :
    added (.node d [cond, body, .node e [other]]) = added body ++ added other := by
  cases d
  cases hkind
  rfl

/-- A `while` adds what its body adds. -/
theorem added_while (hkind : d.kind = .whileStatement) :
    added (.node d [cond, body]) = added body := by
  cases d
  cases hkind
  rfl

end Added

/-- Checking a statement only adds findings. -/
theorem suffix_statement (env : Env) (s : State) {t : Tree} (h : Statement t) :
    s.findings <:+ (statement env s t).findings :=
  (passes_statement h env s 0).findings.suffix

/-- Checking statements only adds findings. -/
theorem suffix_statements (env : Env) (warned : Bool) (s : State) {ts : List Tree}
    (h : ∀ t ∈ ts, Statement t) : s.findings <:+ (statements env warned s ts).findings :=
  (passes_statements (fun t ht => passes_statement (h t ht)) env warned s 0).findings.suffix

/-- Statements in a row are well typed, each behind those before it. -/
theorem sound_statements {ts : List Tree} (h : ∀ t ∈ ts, Statement t) (ih : ∀ t ∈ ts, Sound t)
    (warned : Bool) (hΓ : Γ.Suits env) (htypes : s.types = Γ.types)
    (hs : Silent s (statements env warned s ts)) :
    (∀ before t behind, ts = before ++ t :: behind → WellTyped (Γ.afterAll before) t) ∧
      (statements env warned s ts).types = (Γ.afterAll ts).types := by
  induction ts generalizing warned s Γ with
  | nil =>
      refine ⟨?_, ?_⟩
      · intro before t behind heq
        simp at heq
      · rw [statements, htypes]
        rfl
  | cons t ts ihs =>
      rw [List.forall_mem_cons] at h ih
      rw [statements] at hs ⊢
      obtain ⟨dead, hdead⟩ : ∃ dead,
          dead = (!s.flow.reachable && !warned && t.kind != .emptyStatement) := ⟨_, rfl⟩
      rw [← hdead] at hs ⊢
      have hreported := suffix_reportIf s dead .unreachableCode t.span
      have hpassed := suffix_statement env (s.reportIf dead .unreachableCode t.span) h.1
      have hreport : (s.reportIf dead .unreachableCode t.span).types = Γ.types := by
        rw [← htypes, State.reportIf]
        split <;> rfl
      obtain ⟨hs, hrest⟩ := hs.split (hreported.trans hpassed)
        (suffix_statements env (warned || dead) _ h.2)
      obtain ⟨-, hhere⟩ := hs.split hreported hpassed
      obtain ⟨htyped, hbehind⟩ := ih.1 Γ env _ hΓ hreport hhere
      obtain ⟨hall, hlast⟩ := ihs h.2 ih.2 _ (hΓ.declare _) hbehind hrest
      refine ⟨?_, hlast⟩
      intro before t' behind hsplit
      cases before with
      | nil =>
          obtain ⟨rfl, -⟩ := List.cons.inj hsplit
          exact htyped
      | cons t'' before =>
          obtain ⟨rfl, hrests⟩ := List.cons.inj hsplit
          exact hall before t' behind hrests

/-- A condition is a truth value. -/
theorem sound_enter {cond body : Tree} (h : Conforms (.expression 0) cond) (hΓ : Γ.Suits env)
    (htypes : s.types = Γ.types) (hs : Silent s (enter env s cond body)) :
    HasType Γ cond .bool ∧ (enter env s cond body).types = Γ.types := by
  obtain ⟨given, hgiven⟩ : ∃ given, given = expression env s cond := ⟨_, rfl⟩
  obtain ⟨tested, htested⟩ : ∃ tested, tested = given.2.convert given.1 .bool cond.span := ⟨_, rfl⟩
  have heq : enter env s cond body =
      tested.reportIf (body.kind == .emptyStatement) .emptyBody body.span := by
    rw [htested, hgiven]
    rfl
  have hevaluated : s.findings <:+ given.2.findings := by
    rw [hgiven]
    exact suffix_expression env s cond
  have hfitted : given.2.findings <:+ tested.findings := by
    rw [htested]
    exact (Quiet.convert _ _ _ _).findings.suffix
  rw [heq] at hs ⊢
  obtain ⟨hs, -⟩ := hs.split (hevaluated.trans hfitted) (suffix_reportIf tested _ _ _)
  obtain ⟨hs, hconvert⟩ := hs.split hevaluated hfitted
  rw [hgiven] at hs
  obtain ⟨htyped, hsame⟩ := typed_expression hΓ h s htypes hs
  rw [← hgiven] at htyped hsame
  rw [htested] at hconvert
  obtain ⟨hstate, hconverts⟩ := hconvert.convert htyped.ne_unknown (by decide)
  rw [← htested] at hstate
  rw [hconverts.eq_bool] at htyped
  refine ⟨htyped, ?_⟩
  rw [State.reportIf]
  split
  · exact (congrArg State.types hstate).trans (hsame.trans htypes)
  · exact (congrArg State.types hstate).trans (hsame.trans htypes)

/-- A return has a value just if its method has a result. -/
theorem sound_returnNothing (hkind : d.kind = .returnStatement) : Sound (.node d []) := by
  intro Γ env s hΓ htypes hs
  rw [statement_return hkind] at hs ⊢
  rw [after_other (by rw [hkind]; rfl)]
  have heq : returnStatement env s d.span [] =
      { s.reportIf (env.result != .void) (.valueMissing env.result) d.span with
        flow := (s.reportIf (env.result != .void) (.valueMissing env.result) d.span).flow.cut } :=
    rfl
  rw [heq] at hs ⊢
  have hreport : Silent s
      (s.reportIf (env.result != .void) (.valueMissing env.result) d.span) := hs
  obtain ⟨hresult, hstate⟩ := hreport.reportIf rfl
  rw [bne_eq_false_iff_eq, hΓ.result, ofName_eq_void] at hresult
  exact ⟨.returnNothing hkind hresult, (congrArg State.types hstate).trans htypes⟩

/-- **A return** that is checked silently is well typed. -/
theorem sound_returnValue {t : Tree} (hkind : d.kind = .returnStatement)
    (h : Conforms (.expression 0) t) : Sound (.node d [t]) := by
  intro Γ env s hΓ htypes hs
  obtain ⟨given, hgiven⟩ : ∃ given, given = expression env s t := ⟨_, rfl⟩
  obtain ⟨past, hpast⟩ : ∃ past, past =
      if env.result == .void then given.2.report (.valueReturned env.method) d.span
      else given.2.convert given.1 env.result t.span := ⟨_, rfl⟩
  have heq : returnStatement env s d.span [t] = { past with flow := past.flow.cut } := by
    rw [hpast, hgiven]
    rfl
  have hevaluated : s.findings <:+ given.2.findings := by
    rw [hgiven]
    exact suffix_expression env s t
  have hpassed : given.2.findings <:+ past.findings := by
    rw [hpast]
    split
    · exact List.suffix_cons _ _
    · exact (Quiet.convert _ _ _ _).findings.suffix
  rw [statement_return hkind, heq] at hs ⊢
  rw [after_other (by rw [hkind]; rfl)]
  obtain ⟨hs, hreturn⟩ := Silent.split hevaluated hpassed hs
  rw [hgiven] at hs
  obtain ⟨htyped, hsame⟩ := typed_expression hΓ h s htypes hs
  rw [← hgiven] at htyped hsame
  rw [hpast] at hreturn
  split at hreturn
  · exact absurd hreturn (Silent.not_report rfl)
  · rename_i hresult
    rw [if_neg hresult] at hpast
    rw [beq_iff_eq, hΓ.result, ofName_eq_void] at hresult
    rw [hΓ.result] at hreturn hpast
    obtain ⟨hstate, hconverts⟩ := hreturn.convert htyped.ne_unknown (ofName_ne_unknown _)
    rw [← hpast] at hstate
    exact ⟨.returnValue hkind hresult htyped hconverts,
      (congrArg State.types hstate).trans (hsame.trans htypes)⟩

/-- What the check takes for an effect is one by the rules. -/
theorem effect_of_isEffect {k : Kind} (h : isEffect k = true) : Effect k := by
  cases k with
  | assignment op => exact .assignment op
  | invocation callee => exact .call callee
  | prefixUnary op => exact .prefixStep (isStep_iff.mp h)
  | postfixUnary op => exact .postfixStep (isStep_iff.mp h)
  | _ => cases h

/-- **An expression statement** that is checked silently is well typed. -/
theorem sound_expressionStatement {t : Tree} (hkind : d.kind = .expressionStatement)
    (h : Conforms (.expression 0) t) : Sound (.node d [t]) := by
  intro Γ env s hΓ htypes hs
  rw [statement_expression hkind, expressionStatement] at hs ⊢
  rw [after_other (by rw [hkind]; rfl)]
  obtain ⟨hreport, hexpression⟩ := hs.split (suffix_reportIf s _ _ _) (suffix_expression env _ t)
  obtain ⟨heffect, hstate⟩ := hreport.reportIf rfl
  rw [hstate] at hexpression ⊢
  rw [Bool.not_eq_false'] at heffect
  obtain ⟨htyped, hsame⟩ := typed_expression hΓ h s htypes hexpression
  exact ⟨.expression hkind (effect_of_isEffect heffect) htyped, hsame.trans htypes⟩

/-- Closing a scope puts its locals out of sight. -/
theorem types_closeScope (s : State) : s.closeScope.types = s.types.tail := by
  have hscopes : ∀ (ls : List Local) (s : State),
      (ls.foldl State.reportUnused s).scopes = s.scopes := by
    intro ls
    induction ls with
    | nil => intro s; rfl
    | cons l ls ih =>
        intro s
        rw [List.foldl_cons, ih]
        unfold State.reportUnused
        split <;> rfl
  unfold State.closeScope State.types
  cases hs : s.scopes with
  | nil =>
      dsimp only
      rw [hs]
      rfl
  | cons scope rest => rw [hscopes, List.map_cons, List.tail_cons]

/-- Opening a scope enters the context. -/
theorem types_openScope (htypes : s.types = Γ.types) (reserved : List String) :
    (s.openScope reserved).types = Γ.enter.types := by
  rw [State.types] at htypes
  rw [State.openScope, State.types, List.map_cons, htypes]
  rfl

/-- **A block** that is checked silently is well typed, if its statements are. -/
theorem sound_block (hkind : d.kind = .block) (h : ∀ t ∈ cs, Statement t)
    (ih : ∀ t ∈ cs, Sound t) : Sound (.node d cs) := by
  intro Γ env s hΓ htypes hs
  rw [statement_block hkind] at hs ⊢
  rw [after_other (by rw [hkind]; rfl)]
  obtain ⟨hs, -⟩ := hs.split (suffix_statements env false (s.openScope (declaredNames cs)) h)
    (closeScope_eq _).1.suffix
  obtain ⟨hparts, hbehind⟩ := sound_statements h ih false hΓ.enter (types_openScope htypes _) hs
  refine ⟨.block hkind hparts, ?_⟩
  rw [types_closeScope, hbehind, Context.tail_types, Context.tail_afterAll]
  rfl

/-- **The initializer of a loop** that is checked silently is well typed. -/
theorem sound_loopInit {init : Tree}
    (h : Conforms .variableDeclaration init ∨ Conforms (.expression 0) init) (hΓ : Γ.Suits env)
    (htypes : s.types = Γ.types) (hs : Silent s (loopInit env s init)) :
    (Declares Γ init ∨ ∃ a, HasType Γ init a) ∧
      (loopInit env s init).types = (Γ.declare (declared init)).types := by
  rcases h with h | h
  · obtain ⟨type, hkind, -⟩ := h.declaration
    have heq : loopInit env s init = declaration env s init := by
      rw [loopInit, hkind]
    rw [heq] at hs ⊢
    exact (sound_declaration h hΓ htypes hs).imp_left .inl
  · have hkind : ∀ type, init.kind ≠ .variableDeclaration type := by
      intro type hinit
      cases h with
      | @node _ d _ _ rule _ _ =>
          rw [show d.kind = .variableDeclaration type from hinit] at rule
          cases rule
    have heq : loopInit env s init = (expression env s init).2 := by
      unfold loopInit
      split
      · exact absurd ‹_› (hkind _)
      · rfl
    have hdeclared : declared init = [] := by
      unfold declared
      split
      · exact absurd ‹_› (hkind _)
      · rfl
    rw [heq] at hs ⊢
    rw [hdeclared, Context.declare_nil]
    obtain ⟨htyped, hsame⟩ := typed_expression hΓ h s htypes hs
    exact ⟨.inr ⟨_, htyped⟩, hsame.trans htypes⟩

/-- A round of a loop is well typed; what ends it sees the locals of the body. -/
theorem sound_round {cond body step : Tree} (h : Conforms (.expression 0) cond)
    (hbody : Statement body) (ih : Sound body) (hstep : Conforms (.expression 0) step)
    (hΓ : Γ.Suits env) (htypes : s.types = Γ.types) (hs : Silent s (round env s cond body [step])) :
    HasType Γ cond .bool ∧ WellTyped Γ body ∧ (∃ a, HasType (Γ.after body) step a) ∧
      (round env s cond body [step]).types = (Γ.after body).types := by
  obtain ⟨inner, hinner⟩ : ∃ inner, inner = statement env (enter env s cond body) body := ⟨_, rfl⟩
  obtain ⟨last, hlast⟩ : ∃ last, last = if inner.flow.reachable then inner
      else { inner with flow := (enter env s cond body).flow } := ⟨_, rfl⟩
  have heq : round env s cond body [step] = (expression env last step).2 := by
    rw [hlast, hinner]
    rfl
  have hfindings : last.findings = inner.findings := by
    rw [hlast]
    split <;> rfl
  have hsame : last.types = inner.types := by
    rw [hlast]
    split <;> rfl
  have hentered := (keeps_enter env s cond body).findings.suffix
  have hpassed : (enter env s cond body).findings <:+ last.findings := by
    rw [hfindings, hinner]
    exact suffix_statement env _ hbody
  rw [heq] at hs ⊢
  obtain ⟨hs, hstepped⟩ := hs.split (hentered.trans hpassed) (suffix_expression env last step)
  obtain ⟨hs, hround⟩ := hs.split hentered hpassed
  obtain ⟨hcond, htypes'⟩ := sound_enter h hΓ htypes hs
  rw [Silent.congr_right hfindings, hinner] at hround
  obtain ⟨hwellTyped, hbehind⟩ := ih Γ env _ hΓ htypes' hround
  rw [← hinner, ← hsame] at hbehind
  obtain ⟨htyped, hkept⟩ := typed_expression (hΓ.declare _) hstep last hbehind hstepped
  exact ⟨hcond, hwellTyped, ⟨_, htyped⟩, hkept.trans hbehind⟩

/-- **A statement that is checked in silence is well typed.** -/
theorem sound_statement {t : Tree} (h : Statement t) : Sound t := by
  induction h with
  | block hkind parts ih => exact sound_block hkind parts ih
  | @declaration d t hkind part =>
      intro Γ env s hΓ htypes hs
      rw [statement_declaration hkind] at hs ⊢
      obtain ⟨hdeclares, hbehind⟩ := sound_declaration part hΓ htypes hs
      refine ⟨.declaration hkind hdeclares, ?_⟩
      rw [Context.after, added_declaration hkind]
      exact hbehind
  | expression hkind part => exact sound_expressionStatement hkind part
  | @empty d hkind =>
      intro Γ env s hΓ htypes hs
      rw [statement_empty hkind, after_other (by rw [hkind]; rfl)]
      exact ⟨.empty hkind, htypes⟩
  | returnNothing hkind => exact sound_returnNothing hkind
  | returnValue hkind part => exact sound_returnValue hkind part
  | @ifThen d cond body hkind test branch ih =>
      intro Γ env s hΓ htypes hs
      rw [statement_ifThen hkind] at hs ⊢
      obtain ⟨hentered, hbranch⟩ := Silent.split (keeps_enter env s cond body).findings.suffix
        (suffix_statement env _ branch) hs
      obtain ⟨hcond, htypes'⟩ := sound_enter test hΓ htypes hentered
      obtain ⟨hbody, hbehind⟩ := ih Γ env _ hΓ htypes' hbranch
      refine ⟨.ifThen hkind hcond hbody, ?_⟩
      rw [Context.after, added_ifThen hkind]
      exact hbehind
  | @ifElse d e cond body other hkind helse test branch otherwise ih ihOther =>
      intro Γ env s hΓ htypes hs
      rw [statement_ifElse hkind] at hs ⊢
      dsimp only at hs ⊢
      obtain ⟨inner, hinner⟩ : ∃ inner, inner = statement env (enter env s cond body) body :=
        ⟨_, rfl⟩
      rw [← hinner] at hs ⊢
      have hentered := (keeps_enter env s cond body).findings.suffix
      have hpassed : (enter env s cond body).findings <:+
          ({ inner with flow := (enter env s cond body).flow } : State).findings := by
        rw [hinner]
        exact suffix_statement env _ branch
      obtain ⟨hs, hother⟩ := Silent.split (hentered.trans hpassed)
        (suffix_statement env _ otherwise) hs
      obtain ⟨hs, hbranch⟩ := hs.split hentered hpassed
      obtain ⟨hcond, htypes'⟩ := sound_enter test hΓ htypes hs
      have hsilent : Silent (enter env s cond body)
          (statement env (enter env s cond body) body) := by
        rwa [← hinner]
      obtain ⟨hbody, hbehind⟩ := ih Γ env _ hΓ htypes' hsilent
      rw [← hinner] at hbehind
      obtain ⟨hothers, hlast⟩ := ihOther (Γ.after body) env
        { inner with flow := (enter env s cond body).flow } (hΓ.declare _) hbehind hother
      refine ⟨.ifElse hkind hcond hbody hothers, ?_⟩
      rw [Context.after, added_ifElse hkind, Context.declare_append]
      exact hlast
  | @whileLoop d cond body hkind test round ih =>
      intro Γ env s hΓ htypes hs
      rw [statement_while hkind] at hs ⊢
      obtain ⟨hentered, hround⟩ := Silent.split (keeps_enter env s cond body).findings.suffix
        (suffix_statement env _ round) hs
      obtain ⟨hcond, htypes'⟩ := sound_enter test hΓ htypes hentered
      obtain ⟨hbody, hbehind⟩ := ih Γ env _ hΓ htypes' hround
      refine ⟨.whileLoop hkind hcond hbody, ?_⟩
      rw [Context.after, added_while hkind]
      exact hbehind
  | @forLoop d init cond step body hkind start test next round ih =>
      intro Γ env s hΓ htypes hs
      rw [statement_for hkind] at hs ⊢
      rw [after_other (by rw [hkind]; rfl)]
      have hstart : (s.openScope []).findings <:+ (loopInit env (s.openScope []) init).findings :=
        (passes_loopInit env (s.openScope []) 0 init).findings.suffix
      have hpassed : (loopInit env (s.openScope []) init).findings <:+
          (Check.round env (loopInit env (s.openScope []) init) cond body [step]).findings :=
        (passes_round (passes_statement round) env _ 0).findings.suffix
      obtain ⟨hs, -⟩ := Silent.split (hstart.trans hpassed) (closeScope_eq _).1.suffix hs
      obtain ⟨hs, hround⟩ := hs.split hstart hpassed
      obtain ⟨hinit, htypes'⟩ := sound_loopInit start hΓ.enter (types_openScope htypes []) hs
      obtain ⟨hcond, hbody, ⟨a, hnext⟩, hbehind⟩ :=
        sound_round test round ih next (hΓ.enter.declare _) htypes' hround
      refine ⟨.forLoop hkind hinit hcond hbody hnext, ?_⟩
      have hclosed := types_closeScope
        (Check.round env (loopInit env (s.openScope []) init) cond body [step])
      rw [hbehind, Context.tail_types, Context.after, Context.tail_declare,
        Context.tail_declare] at hclosed
      exact hclosed

end Check
end SharpMutants
