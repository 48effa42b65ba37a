import SharpMutants.Proofs.Check.Progress
import SharpMutants.Proofs.Check.Runs
import SharpMutants.Proofs.Check.Forms
import SharpMutants.Proofs.MethodGraph
import SharpMutants.Proofs.Neighbours

/-!
# What a check keeps as it passes a statement

Behind a statement the scopes of the check hold the names that the scopes of a run hold
(`Execution.after`), nothing is assigned that is no local in scope or declared in the
statement, and what was out of reach stays so (`Passes`).  As long as no error is found,
no two locals in scope have one name.  Each operation on the state passes that on, so a
statement does: `passes_statement`.
-/

namespace SharpMutants

namespace Execution

/-- The names of the locals of the open scopes. -/
def names (fs : Frames) : List (List String) := fs.map fun f => f.map Prod.fst

/-- A name joins the innermost of some lists, unless it is there. -/
def join (ns : List (List String)) (name : String) : List (List String) :=
  match ns with
  | [] => []
  | first :: outer => if name ∈ first then first :: outer else (name :: first) :: outer

/-- A name is found in a frame just if it stands there. -/
theorem lookup_isSome {α : Type} {f : List (String × α)} {name : String} :
    (f.lookup name).isSome = true ↔ name ∈ f.map Prod.fst := by
  induction f with
  | nil => simp
  | cons e f ih =>
      rw [List.map_cons, List.mem_cons, List.lookup_cons, ← ih]
      by_cases h : name = e.1
      · simp [h]
      · rw [beq_eq_false_iff_ne.mpr h]
        simp [h]

/-- A name is not found in a frame just if it does not stand there. -/
theorem lookup_eq_none {α : Type} {f : List (String × α)} {name : String} :
    f.lookup name = none ↔ name ∉ f.map Prod.fst := by
  rw [← lookup_isSome, Bool.not_eq_true, Option.isSome_eq_false_iff, Option.isNone_iff_eq_none]

/-- Declaring a local adds its name to the innermost frame. -/
theorem names_declare (fs : Frames) (name : String) (ℓ : Nat) :
    names (declare fs name ℓ) = join (names fs) name := by
  cases fs with
  | nil => rfl
  | cons f outer =>
      rw [declare, names, names, List.map_cons, join]
      by_cases h : name ∈ f.map Prod.fst
      · rw [if_pos (lookup_isSome.mpr h), if_pos h, List.map_cons]
      · rw [if_neg (fun hsome => h (lookup_isSome.mp hsome)), if_neg h, List.map_cons,
          List.map_cons]

/-- Locals that are declared one after another are declared together. -/
theorem declareAll_append (fs : Frames) (es es' : List (String × Nat)) :
    declareAll fs (es ++ es') = declareAll (declareAll fs es) es' := by
  rw [declareAll, List.foldl_append, declareAll, declareAll]

/-- Declaring a local changes the innermost frame only. -/
theorem tail_declare (f : List (String × Nat)) (fs : Frames) (name : String) (ℓ : Nat) :
    ∃ f', declare (f :: fs) name ℓ = f' :: fs := by
  rw [declare]
  split
  · exact ⟨f, rfl⟩
  · exact ⟨_, rfl⟩

/-- Only the innermost scope changes. -/
theorem exists_declareAll (f : List (String × Nat)) (fs : Frames) (es : List (String × Nat)) :
    ∃ f', declareAll (f :: fs) es = f' :: fs := by
  induction es generalizing f with
  | nil => exact ⟨f, rfl⟩
  | cons e es ih =>
      obtain ⟨f', hf'⟩ := tail_declare f fs e.1 e.2
      obtain ⟨f'', hf''⟩ := ih f'
      refine ⟨f'', ?_⟩
      rw [declareAll, List.foldl_cons, hf']
      exact hf''

/-- The open scopes behind the statements of a list, the first at a node. -/
def afterAll (fs : Frames) (id : Nat) : List Tree → Frames
  | [] => fs
  | t :: ts => afterAll (after fs id t) (id + t.size) ts

/-- Statements one after another change the innermost frame only. -/
theorem exists_afterAll (f : List (String × Nat)) (fs : Frames) (id : Nat) (ts : List Tree) :
    ∃ f', afterAll (f :: fs) id ts = f' :: fs := by
  induction ts generalizing f id with
  | nil => exact ⟨f, rfl⟩
  | cons t ts ih =>
      obtain ⟨f', hf'⟩ := exists_declareAll f fs (locals id t)
      obtain ⟨f'', hf''⟩ := ih f' (id + t.size)
      refine ⟨f'', ?_⟩
      rw [afterAll, after, hf']
      exact hf''

/-- A loop leaves the scopes around it as they are. -/
theorem exists_afterLoop (f : List (String × Nat)) (fs : Frames) (id : Nat) (init : Tree)
    (n : Nat) (body : Tree) : ∃ f', after (afterInit (f :: fs) id init) n body = f' :: fs := by
  obtain ⟨f', hf'⟩ := exists_declareAll f fs (declared (declarators id init))
  obtain ⟨f'', hf''⟩ := exists_declareAll f' fs (locals n body)
  exact ⟨f'', by rw [afterInit, hf', after, hf'']⟩

end Execution

namespace Check

open Execution (Frames)

/-! ## Equations -/

section Equations

variable {env : Env} {s : State} {d e : Node} {cs : List Tree}
  {t cond body other init step : Tree}

/-- The state in front of the body of a branch or a loop. -/
def enter (env : Env) (s : State) (cond body : Tree) : State :=
  warnEmptyBody (condition env s cond) body

/-- The state behind a round of a loop that ends with the expressions of a list.  If the end of
the body is out of reach, they are checked as if they stood in front of it. -/
def round (env : Env) (s : State) (cond body : Tree) (steps : List Tree) : State :=
  let inner := statement env (enter env s cond body) body
  (expressions env (if inner.flow.reachable then inner
    else { inner with flow := (enter env s cond body).flow }) steps).2

/-- A block is checked by its statements in a scope of their own. -/
theorem statement_block (hkind : d.kind = .block) : statement env s (.node d cs) =
    (statements env false (s.openScope (declaredNames cs)) cs).closeScope := by
  cases d
  cases hkind
  rfl

/-- A declaration is checked as such. -/
theorem statement_declaration (hkind : d.kind = .localDeclaration) :
    statement env s (.node d (t :: cs)) = declaration env s t := by
  cases d
  cases hkind
  rfl

/-- An expression statement is checked as such. -/
theorem statement_expression (hkind : d.kind = .expressionStatement) :
    statement env s (.node d (t :: cs)) = expressionStatement env s t := by
  cases d
  cases hkind
  rfl

/-- An empty statement is passed over. -/
theorem statement_empty (hkind : d.kind = .emptyStatement) : statement env s (.node d cs) = s := by
  cases d
  cases hkind
  rfl

/-- A return is checked as such. -/
theorem statement_return (hkind : d.kind = .returnStatement) :
    statement env s (.node d cs) = returnStatement env s d.span cs := by
  cases d
  cases hkind
  rfl

/-- An `if` is checked by its condition and its branch. -/
theorem statement_ifThen (hkind : d.kind = .ifStatement) :
    statement env s (.node d [cond, body]) =
      let inner := statement env (enter env s cond body) body
      { inner with flow := inner.flow.join (enter env s cond body).flow } := by
  cases d
  cases hkind
  rfl

/-- An `if` with two branches is checked by its condition and both branches. -/
theorem statement_ifElse (hkind : d.kind = .ifStatement) :
    statement env s (.node d [cond, body, .node e [other]]) =
      let inner := statement env (enter env s cond body) body
      let last := statement env { inner with flow := (enter env s cond body).flow } other
      { last with flow := inner.flow.join last.flow } := by
  cases d
  cases hkind
  rfl

/-- A `while` is checked by its condition and its body. -/
theorem statement_while (hkind : d.kind = .whileStatement) :
    statement env s (.node d [cond, body]) =
      { statement env (enter env s cond body) body with
        flow := loopExit cond (enter env s cond body).flow } := by
  cases d
  cases hkind
  rfl

/-- A `for` is checked by its initializer and a round, in a scope of their own. -/
theorem statement_for (hkind : d.kind = .forStatement) :
    statement env s (.node d [init, cond, step, body]) =
      { (round env (loopInit env (s.openScope []) init) cond body [step]).closeScope with
        flow :=
          loopExit cond (enter env (loopInit env (s.openScope []) init) cond body).flow } := by
  cases d
  cases hkind
  rfl

end Equations

/-! ## Passing a statement -/

/-- No error is found. -/
def State.Clean (s : State) : Prop := ∀ f ∈ s.findings, f.1.severity ≠ .error

/-- If no error is found later on, none was found before. -/
theorem Adds.clean {s s' : State} (h : Adds s s') (hclean : s'.Clean) : s.Clean := by
  obtain ⟨new, heq, -⟩ := h
  intro f hf
  apply hclean
  rw [heq]
  exact List.mem_append_right new hf

/-- What passing a part of a body keeps, if the part may declare certain names and makes the
scopes of a run grow in a certain way. -/
structure Passes (named : String → Prop) (grow : Frames → Frames) (s s' : State) : Prop where
  findings : Adds s s'
  reachable : s'.flow.reachable = true → s.flow.reachable = true
  aligned : ∀ fs, s.names = Execution.names fs → s'.names = Execution.names (grow fs)
  locals : ∀ x, s'.HasLocal x → s.HasLocal x ∨ named x
  assigned : ∀ x ∈ s'.flow.assigned, x ∈ s.flow.assigned ∨ s.HasLocal x ∨ named x
  distinct : s'.Clean → s.names.flatten.Nodup → s'.names.flatten.Nodup

namespace Passes

variable {named named' : String → Prop} {grow grow' : Frames → Frames} {s s' s'' : State}

/-- What keeps the names passes no names on. -/
theorem of_keeps (h : Keeps s s') : Passes named (fun fs => fs) s s' where
  findings := h.findings
  reachable hreachable := by rwa [h.reachable] at hreachable
  aligned fs hfs := h.names.trans hfs
  locals x hx := .inl (h.hasLocal_iff.mp hx)
  assigned x hx := (h.assigned x hx).imp_right .inl
  distinct _ hnodup := by rwa [h.names]

/-- What two checks pass on, they pass on one after the other. -/
theorem trans (h : Passes named grow s s') (h' : Passes named grow' s' s'') :
    Passes named (fun fs => grow' (grow fs)) s s'' where
  findings := h.findings.trans h'.findings
  reachable hreachable := h.reachable (h'.reachable hreachable)
  aligned fs hfs := h'.aligned _ (h.aligned fs hfs)
  locals x hx := by
    rcases h'.locals x hx with hx | hx
    · exact h.locals x hx
    · exact .inr hx
  assigned x hx := by
    rcases h'.assigned x hx with hx | hx | hx
    · exact h.assigned x hx
    · exact .inr (h.locals x hx)
    · exact .inr (.inr hx)
  distinct hclean hnodup := h'.distinct hclean (h.distinct (h'.findings.clean hclean) hnodup)

/-- What passes some names on passes more names on. -/
theorem mono (h : Passes named grow s s') (hnamed : ∀ x, named x → named' x) :
    Passes named' grow s s' :=
  ⟨h.findings, h.reachable, h.aligned, fun x hx => (h.locals x hx).imp_right (hnamed x),
    fun x hx => (h.assigned x hx).imp_right (Or.imp_right (hnamed x)), h.distinct⟩

/-- The flow may be put back to one that passing the part has gone through, or that two such
make together. -/
theorem withFlow (h : Passes named grow s s') {flow : Flow}
    (hreachable : flow.reachable = true → s.flow.reachable = true)
    (hassigned : ∀ x ∈ flow.assigned, x ∈ s.flow.assigned ∨ s.HasLocal x ∨ named x) :
    Passes named grow s { s' with flow := flow } :=
  ⟨h.findings, hreachable, h.aligned, h.locals, hassigned, h.distinct⟩

/-- Where the flow goes does not matter for the names that are passed on. -/
theorem cut (h : Passes named grow s s') : Passes named grow s { s' with flow := s'.flow.cut } :=
  h.withFlow (fun hcut => nomatch hcut) h.assigned

/-- Two ways meet. -/
theorem join {s₁ s₂ : State} {grow₁ grow₂ : Frames → Frames} (h : Passes named grow s s')
    (h₁ : Passes named grow₁ s s₁) (h₂ : Passes named grow₂ s s₂) :
    Passes named grow s { s' with flow := s₁.flow.join s₂.flow } := by
  apply h.withFlow
  · intro hreachable
    rcases (Flow.reachable_join _ _).mp hreachable with hreachable | hreachable
    · exact h₁.reachable hreachable
    · exact h₂.reachable hreachable
  · intro x hx
    rcases Flow.mem_of_mem_join hx with hx | hx
    · exact h₁.assigned x hx
    · exact h₂.assigned x hx

end Passes

/-! ## Declarations -/

/-- With an error reported, an error is found. -/
theorem State.not_clean_report {s : State} {finding : Finding} {site : Span}
    (h : finding.severity = .error) : ¬(s.report finding site).Clean := fun hclean =>
  hclean (finding, site) List.mem_cons_self h

/-- A declaration that no error is found in has a name of its own. -/
theorem State.not_hasLocal_of_clean {env : Env} {s : State} {name : String} {type : Ty}
    {site : Span} {initialized : Bool} (h : (s.declare env name type site initialized).Clean) :
    ¬s.HasLocal name := by
  unfold State.declare at h
  cases hscopes : s.scopes with
  | nil => simp [State.HasLocal, State.names, hscopes]
  | cons scope outer =>
      rw [hscopes] at h
      dsimp only at h
      split at h
      · exact absurd h (not_clean_report rfl)
      · rename_i hhere
        by_cases hshadows : ((typeIn? env.parameters name).isSome ||
            outer.any fun o => o.declares name || o.reserved.contains name) = true
        · rw [State.reportIf, if_pos hshadows] at h
          exact absurd h (not_clean_report rfl)
        · intro hlocal
          obtain ⟨ns, hns, hname⟩ := hlocal
          rw [State.names, hscopes, List.map_cons, List.mem_cons] at hns
          rcases hns with rfl | hns
          · exact hhere (Scope.declares_iff.mpr hname)
          · obtain ⟨o, ho, rfl⟩ := List.mem_map.mp hns
            apply hshadows
            rw [Bool.or_eq_true, List.any_eq_true]
            exact .inr ⟨o, ho, by rw [Scope.declares_iff.mpr hname, Bool.true_or]⟩

/-- Declaring a local adds its name to the innermost scope. -/
theorem State.names_declare (env : Env) (s : State) (name : String) (type : Ty) (site : Span)
    (initialized : Bool) :
    (s.declare env name type site initialized).names = Execution.join s.names name := by
  unfold State.declare
  cases hscopes : s.scopes with
  | nil => simp [State.names, hscopes, Execution.join]
  | cons scope outer =>
      dsimp only
      rw [State.names, State.names, hscopes, List.map_cons, Execution.join]
      by_cases hhere : name ∈ scope.locals.map Local.name
      · rw [if_pos (Scope.declares_iff.mpr hhere), if_pos hhere, State.report, hscopes,
          List.map_cons]
      · rw [if_neg (fun h => hhere (Scope.declares_iff.mp h)), if_neg hhere, List.map_cons,
          List.map_cons]

/-- Declaring a local only adds findings and goes on. -/
theorem State.declare_eq (env : Env) (s : State) (name : String) (type : Ty) (site : Span)
    (initialized : Bool) : Adds s (s.declare env name type site initialized) ∧
      (s.declare env name type site initialized).flow = s.flow := by
  unfold State.declare
  split
  · exact ⟨.refl s, rfl⟩
  · dsimp only
    split
    · exact ⟨.report s site (Finding.code_ne rfl), rfl⟩
    · rw [State.reportIf]
      split
      · exact ⟨.report s site (Finding.code_ne rfl), rfl⟩
      · exact ⟨.of_findings_eq rfl, rfl⟩

/-- A name in a scope that is joined by another was there, or is the other. -/
theorem mem_join {ns : List (List String)} {name x : String} {n : List String}
    (hn : n ∈ Execution.join ns name) (hx : x ∈ n) : (∃ n ∈ ns, x ∈ n) ∨ x = name := by
  cases ns with
  | nil => cases hn
  | cons first outer =>
      rw [Execution.join] at hn
      split at hn
      · exact .inl ⟨n, hn, hx⟩
      · rcases List.mem_cons.mp hn with rfl | hn
        · rcases List.mem_cons.mp hx with rfl | hx
          · exact .inr rfl
          · exact .inl ⟨first, List.mem_cons_self, hx⟩
        · exact .inl ⟨n, List.mem_cons_of_mem first hn, hx⟩

/-- Different names stay different when a new one joins them. -/
theorem nodup_join {ns : List (List String)} {name : String} (h : ns.flatten.Nodup)
    (hname : ¬∃ n ∈ ns, name ∈ n) : (Execution.join ns name).flatten.Nodup := by
  cases ns with
  | nil => exact .nil
  | cons first outer =>
      rw [Execution.join]
      split
      · exact h
      · rw [List.flatten_cons, List.cons_append, List.nodup_cons]
        refine ⟨fun hmem => hname ?_, h⟩
        exact List.mem_flatten.mp hmem

namespace Passes

/-- **Declaring a local** passes its name on. -/
theorem declare (env : Env) (s : State) (name : String) (type : Ty) (site : Span)
    (initialized : Bool) (ℓ : Nat) : Passes (· = name) (Execution.declare · name ℓ) s
      (s.declare env name type site initialized) where
  findings := (State.declare_eq env s name type site initialized).1
  reachable h := by rwa [(State.declare_eq env s name type site initialized).2] at h
  aligned fs hfs := by rw [State.names_declare, hfs, Execution.names_declare]
  locals x hx := by
    obtain ⟨n, hn, hx⟩ := hx
    rw [State.names_declare] at hn
    exact mem_join hn hx
  assigned x hx := by
    rw [(State.declare_eq env s name type site initialized).2] at hx
    exact .inl hx
  distinct hclean hnodup := by
    rw [State.names_declare]
    exact nodup_join hnodup (State.not_hasLocal_of_clean hclean)

end Passes

/-! ## Scopes -/

/-- Warning of a local that is never read is quiet. -/
theorem quiet_reportUnused (s : State) (l : Local) : Quiet s (s.reportUnused l) := by
  unfold State.reportUnused
  split
  · exact .refl s
  · exact .report s _ (by split <;> exact Finding.code_ne rfl)

/-- Closing a scope only warns. -/
theorem closeScope_eq (s : State) : Adds s s.closeScope ∧
    s.closeScope.names = s.names.tail ∧ s.closeScope.flow = s.flow := by
  unfold State.closeScope
  cases hscopes : s.scopes with
  | nil => exact ⟨.refl s, by simp [State.names, hscopes], rfl⟩
  | cons scope rest =>
      have hquiet : Quiet { s with scopes := rest }
          (scope.locals.reverse.foldl State.reportUnused { s with scopes := rest }) :=
        .foldl (fun s => s) quiet_reportUnused _ _
      refine ⟨hquiet.findings, ?_, hquiet.flow⟩
      dsimp only
      rw [hquiet.names, State.names, State.names, hscopes, List.map_cons, List.tail_cons]

/-- Closing a scope does not touch the flow. -/
theorem closeScope_withFlow (s : State) (flow : Flow) :
    ({ s with flow := flow } : State).closeScope = { s.closeScope with flow := flow } := by
  have hfoldl : ∀ (ls : List Local) (s : State),
      ls.foldl State.reportUnused { s with flow := flow } =
        { ls.foldl State.reportUnused s with flow := flow } := by
    intro ls
    induction ls with
    | nil => intro s; rfl
    | cons l ls ih =>
        intro s
        rw [List.foldl_cons, List.foldl_cons, ← ih]
        congr 1
        unfold State.reportUnused
        split <;> rfl
  unfold State.closeScope
  cases hscopes : s.scopes with
  | nil =>
      dsimp only
      rw [hscopes]
  | cons scope rest => exact hfoldl scope.locals.reverse { s with scopes := rest }

/-- A scope that is opened, passed through and closed leaves the scopes around as they are. -/
theorem Passes.scoped {named : String → Prop} {grow : Frames → Frames} {s s' : State}
    {reserved : List String} (h : Passes named grow (s.openScope reserved) s')
    (hgrow : ∀ f fs, ∃ f', grow (f :: fs) = f' :: fs) :
    Passes named (fun fs => fs) s s'.closeScope := by
  obtain ⟨hadds, hnames, hflow⟩ := closeScope_eq s'
  have hopen : (s.openScope reserved).names = [] :: s.names := rfl
  have hlocal : ∀ x, (s.openScope reserved).HasLocal x → s.HasLocal x := by
    intro x hx
    obtain ⟨n, hn, hx⟩ := hx
    rw [hopen] at hn
    rcases List.mem_cons.mp hn with rfl | hn
    · cases hx
    · exact ⟨n, hn, hx⟩
  constructor
  case findings =>
    have hadded : Adds s (s.openScope reserved) := .of_findings_eq rfl
    exact hadded.trans (h.findings.trans hadds)
  case reachable =>
    intro hreachable
    rw [hflow] at hreachable
    exact h.reachable hreachable
  case aligned =>
    intro fs hfs
    obtain ⟨f', hf'⟩ := hgrow [] fs
    have hinner := h.aligned ([] :: fs) (by rw [hopen, hfs]; rfl)
    rw [hnames, hinner, hf']
    rfl
  case locals =>
    intro x hx
    obtain ⟨n, hn, hx⟩ := hx
    rw [hnames] at hn
    exact (h.locals x ⟨n, List.mem_of_mem_tail hn, hx⟩).imp_left (hlocal x)
  case assigned =>
    intro x hx
    rw [hflow] at hx
    rcases h.assigned x hx with hx | hx | hx
    · exact .inl hx
    · exact .inr (.inl (hlocal x hx))
    · exact .inr (.inr hx)
  case distinct =>
    intro hclean hnodup
    have hinner := h.distinct (hadds.clean hclean) (by rwa [hopen])
    rw [hnames]
    cases hs : s'.names with
    | nil => exact .nil
    | cons n ns =>
        rw [hs, List.flatten_cons] at hinner
        exact (List.nodup_append.mp hinner).2.1

/-! ## Statements -/

/-- A name is declared somewhere in a tree. -/
def Declared (t : Tree) (name : String) : Prop :=
  ∃ u ∈ t.subtrees, u.kind = .variableDeclarator name

/-- What a child declares is declared by the node around it. -/
theorem Declared.of_child {d : Node} {cs : List Tree} {c : Tree} {name : String}
    (h : Declared c name) (hc : c ∈ cs) : Declared (.node d cs) name := by
  obtain ⟨u, hu, hkind⟩ := h
  refine ⟨u, ?_, hkind⟩
  rw [Tree.subtrees_node]
  exact List.mem_cons_of_mem _ (Tree.mem_subtreesOf.mpr ⟨c, hc, hu⟩)

/-- A tree may be passed as a statement, whatever its number. -/
def Passable (t : Tree) : Prop :=
  ∀ env s id, Passes (Declared t) (Execution.after · id t) s (statement env s t)

namespace Passes

/-- A declarator is passed, whether it has an initializer or not. -/
theorem declarator (env : Env) (type : Ty) (s : State) {t : Tree} {name : String}
    (hkind : t.kind = .variableDeclarator name) (ts : List Tree) (ℓ : Nat) :
    ∃ s', Check.declarators env type s (t :: ts) = Check.declarators env type s' ts ∧
      Passes (· = name) (Execution.declare · name ℓ) s s' := by
  rw [Check.declarators, hkind]
  dsimp only
  cases t.children with
  | cons init rest =>
      refine ⟨_, rfl, ?_⟩
      have hinit := (keeps_expression env s init).quiet
        (.convert _ (expression env s init).1 type init.span)
      have hpast := (of_keeps hinit).trans (declare env _ name type t.span true ℓ)
      refine hpast.withFlow ?_ ?_
      · intro hreachable
        rw [Flow.reachable_assign] at hreachable
        exact hpast.reachable hreachable
      · intro x hx
        rcases Flow.mem_assigned_assign.mp hx with rfl | hx
        · exact .inr (.inr rfl)
        · exact hpast.assigned x hx
  | nil =>
      have hpast := declare env s name type t.span false ℓ
      refine ⟨_, rfl, hpast.withFlow hpast.reachable ?_⟩
      intro x hx
      exact hpast.assigned x (Flow.mem_assigned_unassign.mp hx).1

/-- **Declarators** pass their names on. -/
theorem declarators (env : Env) (type : Ty) (ts : List Tree) (s : State) {ds : List (Nat × Tree)}
    (hds : ds.map Prod.snd = ts) :
    Passes (fun x => ∃ t ∈ ts, t.kind = .variableDeclarator x)
      (Execution.declareAll · (Execution.declared ds)) s (Check.declarators env type s ts) := by
  induction ts generalizing s ds with
  | nil =>
      obtain rfl : ds = [] := List.map_eq_nil_iff.mp hds
      exact of_keeps (.refl s)
  | cons t ts ih =>
      obtain ⟨⟨n, t⟩, ds, rfl, rfl, rfl⟩ := List.map_eq_cons_iff.mp hds
      have hrest : ∀ s', Passes
          (fun x => ∃ u ∈ t :: ds.map Prod.snd, u.kind = .variableDeclarator x)
          (Execution.declareAll · (Execution.declared ds)) s'
          (Check.declarators env type s' (ds.map Prod.snd)) := by
        intro s'
        refine (ih s' rfl).mono ?_
        intro x hx
        obtain ⟨u, hu, hkind⟩ := hx
        exact ⟨u, List.mem_cons_of_mem _ hu, hkind⟩
      by_cases hkind : ∃ name, t.kind = .variableDeclarator name
      · obtain ⟨name, hname⟩ := hkind
        obtain ⟨s', heq, hhere⟩ := declarator env type s hname (ds.map Prod.snd) n
        rw [heq, Execution.declared_declarator hname]
        refine (hhere.mono ?_).trans (hrest s')
        intro x hx
        exact ⟨t, List.mem_cons_self, by rw [hname, hx]⟩
      · have heq : Check.declarators env type s (t :: ds.map Prod.snd) =
            Check.declarators env type s (ds.map Prod.snd) := by
          rw [Check.declarators]
          split
          · exact absurd ⟨_, ‹_›⟩ hkind
          · rfl
        rw [heq, Execution.declared_other fun name hname => hkind ⟨name, hname⟩]
        exact hrest s

end Passes

/-- A declaration passes its names on. -/
theorem passes_declaration (env : Env) (s : State) (id : Nat) (t : Tree) :
    Passes (Declared t) (Execution.afterInit · id t) s (declaration env s t) := by
  unfold declaration
  split
  · rename_i type hkind
    have hdeclarators : Execution.declarators id t = Tree.numberFrom (id + 1) t.children := by
      rw [Execution.declarators, hkind]
    have hpast := Passes.declarators env (Ty.ofName type) t.children s
      (Tree.map_snd_numberFrom (id + 1) t.children)
    rw [← hdeclarators] at hpast
    refine hpast.mono ?_
    intro x hx
    obtain ⟨u, hu, hname⟩ := hx
    obtain ⟨d, cs⟩ := t
    exact Declared.of_child ⟨u, List.mem_of_getElem? (Tree.getElem?_subtrees_zero u), hname⟩ hu
  · rename_i hkind
    simp only [Execution.afterInit_other hkind]
    exact .of_keeps (.refl s)

/-- The initializer of a loop passes its names on. -/
theorem passes_loopInit (env : Env) (s : State) (id : Nat) (t : Tree) :
    Passes (Declared t) (Execution.afterInit · id t) s (loopInit env s t) := by
  unfold loopInit
  split
  · exact passes_declaration env s id t
  · rename_i hkind
    simp only [Execution.afterInit_other hkind]
    exact .of_keeps (keeps_expression env s t)

/-- **Statements one after another** pass their names on. -/
theorem passes_statements {ts : List Tree} (h : ∀ t ∈ ts, Passable t) (env : Env)
    (warned : Bool) (s : State) (id : Nat) : Passes (fun x => ∃ t ∈ ts, Declared t x)
      (Execution.afterAll · id ts) s (statements env warned s ts) := by
  induction ts generalizing warned s id with
  | nil =>
      rw [statements]
      exact .of_keeps (.refl s)
  | cons t ts ih =>
      rw [List.forall_mem_cons] at h
      rw [statements]
      have hreport : Quiet s (s.reportIf
          (!s.flow.reachable && !warned && t.kind != .emptyStatement) .unreachableCode t.span) :=
        .reportIf s _ _ (by decide)
      have hhere := (Passes.of_keeps hreport.keeps).trans (h.1 env _ id)
      refine (hhere.mono ?_).trans ((ih h.2 _ _ (id + t.size)).mono ?_)
      · intro x hx
        exact ⟨t, List.mem_cons_self, hx⟩
      · intro x hx
        obtain ⟨u, hu, hx⟩ := hx
        exact ⟨u, List.mem_cons_of_mem t hu, hx⟩

/-- Entering a branch keeps the names. -/
theorem keeps_enter (env : Env) (s : State) (cond body : Tree) :
    Keeps s (enter env s cond body) := by
  unfold enter warnEmptyBody condition
  have htest := (keeps_expression env s cond).quiet
    (.convert _ (expression env s cond).1 .bool cond.span)
  exact htest.quiet (.reportIf _ _ _ (by decide))

/-- Behind a loop the flow is that in front of a round, as far as the loop can be left. -/
theorem passes_loopExit {named : String → Prop} {grow grow' : Frames → Frames}
    {s s' entered : State} (h : Passes named grow s s') (hentered : Passes named grow' s entered)
    (cond : Tree) : Passes named grow s { s' with flow := loopExit cond entered.flow } := by
  apply h.withFlow
  · intro hreachable
    unfold loopExit at hreachable
    split at hreachable
    · cases hreachable
    · exact hentered.reachable hreachable
  · intro x hx
    unfold loopExit at hx
    split at hx <;> exact hentered.assigned x hx

/-- A round of a loop is passed as its body is. -/
theorem passes_round {cond body : Tree} {steps : List Tree} (h : Passable body) (env : Env)
    (s : State) (id : Nat) : Passes (Declared body) (Execution.after · id body) s
      (round env s cond body steps) := by
  have hentered := keeps_enter env s cond body
  have hbody := (Passes.of_keeps hentered).trans (h env _ id)
  have hsteps : ∀ s', Keeps s' (expressions env s' steps).2 := fun s' =>
    keeps_expressions (fun t _ s => keeps_expression env s t) s'
  unfold round
  extract_lets inner
  split
  · exact hbody.trans (.of_keeps (hsteps _))
  · refine (hbody.withFlow ?_ ?_).trans (.of_keeps (hsteps _))
    · intro hreachable
      rwa [hentered.reachable] at hreachable
    · intro x hx
      exact (hentered.assigned x hx).imp_right .inl

/-- A return passes no names on. -/
theorem passes_return (env : Env) (s : State) (site : Span) (cs : List Tree)
    (named : String → Prop) : Passes named (fun fs => fs) s (returnStatement env s site cs) := by
  unfold returnStatement
  split
  · exact (Passes.of_keeps (Quiet.reportIf s _ site (Finding.code_ne rfl)).keeps).cut
  · rename_i value _
    have hvalue := keeps_expression env s value
    apply Passes.cut
    apply Passes.of_keeps
    apply hvalue.quiet
    split
    · exact .report _ site (Finding.code_ne rfl)
    · exact .convert _ _ _ _

/-- **A statement is passed** as its runs say. -/
theorem passes_statement {t : Tree} (h : Statement t) : Passable t := by
  induction h with
  | @block d cs hkind _ ih =>
      intro env s id
      have hbody := passes_statements ih env false
        (s.openScope (declaredNames cs)) (id + 1)
      rw [statement_block hkind]
      simp only [Execution.after_other (d := d) (by rw [hkind]; rfl)]
      refine (hbody.scoped fun f fs => Execution.exists_afterAll f fs _ cs).mono ?_
      intro x hx
      obtain ⟨t, ht, hx⟩ := hx
      exact hx.of_child ht
  | @declaration d t hkind _ =>
      intro env s id
      rw [statement_declaration hkind]
      simp only [Execution.after, Execution.locals_declaration hkind]
      refine (passes_declaration env s (id + 1) t).mono ?_
      intro x hx
      exact hx.of_child List.mem_cons_self
  | @expression d t hkind _ =>
      intro env s id
      rw [statement_expression hkind]
      simp only [Execution.after_other (d := d) (by rw [hkind]; rfl)]
      have hreport : Quiet s (s.reportIf (!isEffect t.kind) .idleExpression t.span) :=
        .reportIf s _ _ (by decide)
      exact .of_keeps (hreport.keeps.trans (keeps_expression env _ t))
  | @empty d hkind =>
      intro env s id
      rw [statement_empty hkind]
      simp only [Execution.after_other (d := d) (by rw [hkind]; rfl)]
      exact .of_keeps (.refl s)
  | @returnNothing d hkind =>
      intro env s id
      rw [statement_return hkind]
      simp only [Execution.after_other (d := d) (by rw [hkind]; rfl)]
      exact passes_return env s _ _ _
  | @returnValue d t hkind _ =>
      intro env s id
      rw [statement_return hkind]
      simp only [Execution.after_other (d := d) (by rw [hkind]; rfl)]
      exact passes_return env s _ _ _
  | @ifThen d cond body hkind _ _ ih =>
      intro env s id
      have hentered : Passes (Declared body) (fun fs => fs) s (enter env s cond body) :=
        .of_keeps (keeps_enter env s cond body)
      have hbody := hentered.trans (ih env _ (id + 1 + cond.size))
      rw [statement_ifThen hkind]
      simp only [Execution.after, Execution.locals_ifThen hkind]
      refine (hbody.join hbody hentered).mono ?_
      intro x hx
      exact hx.of_child (by simp)
  | @ifElse d e cond body other hkind _ _ _ _ ih ihOther =>
      intro env s id
      let named : String → Prop := fun x => Declared body x ∨ Declared other x
      have hentered : Passes named (fun fs => fs) s (enter env s cond body) :=
        .of_keeps (keeps_enter env s cond body)
      have hbody := hentered.trans
        ((ih env (enter env s cond body) (id + 1 + cond.size)).mono fun _ => .inl)
      have hback := hbody.withFlow hentered.reachable hentered.assigned
      have hother := hback.trans
        ((ihOther env _ (id + 1 + cond.size + body.size + 1)).mono fun _ => .inr)
      rw [statement_ifElse hkind]
      simp only [Execution.after, Execution.locals_ifElse hkind, Execution.declareAll_append]
      refine (hother.join hbody hother).mono ?_
      intro x hx
      rcases hx with hx | hx
      · exact hx.of_child (by simp)
      · exact (hx.of_child (d := e) (List.mem_singleton_self other)).of_child (by simp)
  | @whileLoop d cond body hkind _ _ ih =>
      intro env s id
      have hentered : Passes (Declared body) (fun fs => fs) s (enter env s cond body) :=
        .of_keeps (keeps_enter env s cond body)
      have hbody := hentered.trans (ih env _ (id + 1 + cond.size))
      rw [statement_while hkind]
      simp only [Execution.after, Execution.locals_while hkind]
      refine (passes_loopExit hbody hentered cond).mono ?_
      intro x hx
      exact hx.of_child (by simp)
  | @forLoop d init cond step body hkind _ _ _ _ ih =>
      intro env s id
      let named : String → Prop := fun x => Declared init x ∨ Declared body x
      have hstart : Passes named _ (s.openScope []) (loopInit env (s.openScope []) init) :=
        (passes_loopInit env (s.openScope []) (id + 1) init).mono fun _ => .inl
      have hentered := hstart.trans (.of_keeps (keeps_enter env _ cond body))
      have hround : Passes named _ (s.openScope [])
          (round env (loopInit env (s.openScope []) init) cond body [step]) :=
        hstart.trans ((passes_round ih env (loopInit env (s.openScope []) init)
          (id + 1 + init.size + cond.size + step.size)).mono fun _ => .inr)
      have hexit := passes_loopExit hround hentered cond
      rw [statement_for hkind, ← closeScope_withFlow]
      simp only [Execution.after_other (d := d) (by rw [hkind]; rfl)]
      refine (hexit.scoped ?_).mono ?_
      · intro f fs
        exact Execution.exists_afterLoop f fs (id + 1) init _ body
      · intro x hx
        rcases hx with hx | hx <;> exact hx.of_child (by simp)

end Check
end SharpMutants
