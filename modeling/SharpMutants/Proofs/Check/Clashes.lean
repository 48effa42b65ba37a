import SharpMutants.Proofs.Check.Overlaps
import SharpMutants.Proofs.Check.Acceptance

/-!
# Locals that clash

What a check finds about names in a method says exactly whether locals in it clash
(`check_clash`), if its declarations stand in blocks.

A statement leaves the scopes as it found them, and something is found in it unless the
tree below it is free of overlaps, with the names of the scopes around it taken
(`judged_statement`).  In a block this goes statement by statement, and the names that the
block reserves are taken from the start (`judged_statements`); `free_block` and its siblings
say the same of overlaps.  What is found is found at nodes of the statement
(`places_statement`).

So each method has its verdict (`exists_verdict`), and the check of a whole tree gathers
the verdicts of its methods and nothing else (`Gathers`).  Methods lie apart in the source,
so that a finding within one of them is from its own verdict.
-/

namespace SharpMutants

open SharpMutants.Tree

namespace Check

/-! ## Statements -/

section Parts

variable {s : State}

/-- Entering a branch declares nothing. -/
@[simp] theorem naming_enter (env : Env) (s : State) (cond body : Tree) :
    (enter env s cond body).naming = s.naming := by
  rw [enter, warnEmptyBody, State.naming_reportIf rfl, condition, State.naming_convert,
    naming_expression]

/-- An expression statement declares nothing. -/
theorem naming_expressionStatement (env : Env) (s : State) (t : Tree) :
    (expressionStatement env s t).naming = s.naming := by
  rw [expressionStatement, naming_expression, State.naming_reportIf rfl]

/-- A return declares nothing. -/
theorem naming_returnStatement (env : Env) (s : State) (site : Span) (cs : List Tree) :
    (returnStatement env s site cs).naming = s.naming := by
  rw [returnStatement.eq_def]
  split
  · exact State.naming_reportIf rfl _ site
  · simp only [State.naming_withFlow]
    split
    · rw [State.naming_report rfl, naming_expression]
    · rw [State.naming_convert, naming_expression]

/-- Of a round of a loop only the body matters to the rules about names. -/
theorem naming_round (env : Env) (s : State) (cond body : Tree) (steps : List Tree) :
    (round env s cond body steps).naming = (statement env (enter env s cond body) body).naming := by
  rw [round, naming_expressions fun t _ s => naming_expression env s t]
  split <;> rfl

/-- A declaration declares its names, at its declarators. -/
theorem binds_declaration (env : Env) (s : State) (t : Tree) :
    Binds env (declarationNames t) s.naming (declaration env s t).naming ∧
      Places t.children s.naming (declaration env s t).naming := by
  rw [declaration, declarationNames]
  cases t.kind with
  | variableDeclaration type => exact binds_declarators env (Ty.ofName type) s t.children
  | _ => exact ⟨.refl env _, .of_clashes_eq rfl⟩

/-- The initializer of a loop declares its names; what is below it declares nothing further. -/
theorem binds_loopInit (env : Env) (s : State) (t : Tree) :
    Binds env (declarationNames t) s.naming (loopInit env s t).naming ∧
      Places t.children s.naming (loopInit env s t).naming := by
  have hdeclaration := binds_declaration env s t
  rw [loopInit]
  split
  · exact hdeclaration
  · rename_i hkind
    rw [naming_expression, declarationNames]
    split
    · exact absurd ‹_› (hkind _)
    · exact ⟨.refl env _, .of_clashes_eq rfl⟩

end Parts

/-- A name is taken within a scope if it is taken around it, stands in it or is reserved for it. -/
theorem taken_cons {env : Env} {here reserved : List String}
    {outer : List (List String × List String)} {x : String} :
    Taken env ((here, reserved) :: outer) x ↔ Taken env outer x ∨ x ∈ here ∨ x ∈ reserved := by
  rw [Taken, List.exists_mem_cons_iff, ← or_assoc]
  exact or_right_comm

/-- A statement leaves the scopes as they are, and something is found in it unless the locals in it
overlap neither with each other nor with the names that are taken around it. -/
def Judged (root : Tree) (id : Nat) (t : Tree) : Prop :=
  ∀ env s, (statement env s t).naming.scopes = s.naming.scopes ∧
    Finds (root.Free (Taken env s.naming.scopes) id) s.naming (statement env s t).naming

/-- The names that statements declare are those of the first and those of the others. -/
theorem declaredNames_cons (t : Tree) (ts : List Tree) :
    declaredNames (t :: ts) = declaredNames [t] ++ declaredNames ts := by
  rw [declaredNames, declaredNames, declaredNames, ← List.flatMap_append, List.singleton_append]

section Row

variable {root t : Tree} {n : Nat} {s : State} {here reserved : List String}
  {outer : List (List String × List String)}

/-- A statement of a block. -/
theorem judged_entry (env : Env) (hform : Statement t)
    (h : t.kind ≠ .localDeclaration → Judged root n t)
    (hdeclaration : t.kind = .localDeclaration → ∀ taken, root.Free taken n)
    (hs : s.naming.scopes = (here, reserved) :: outer) (hhere : here ⊆ reserved) :
    ∃ here', (statement env s t).naming.scopes = (here', reserved) :: outer ∧
      (∀ x, x ∈ here' ↔ x ∈ declaredNames [t] ∨ x ∈ here) ∧
      Finds (Fresh env here outer (declaredNames [t]) ∧
        root.Free (fun x => Taken env outer x ∨ x ∈ reserved) n)
        s.naming (statement env s t).naming := by
  by_cases hlocal : t.kind = .localDeclaration
  · have hfree := hdeclaration hlocal fun x => Taken env outer x ∨ x ∈ reserved
    obtain ⟨d, v, rfl, hkind, part⟩ := hform.exists_declaration hlocal
    obtain ⟨type, htype, -⟩ := part.declaration
    have hnames : declaredNames [.node d [v]] = declarationNames v := by
      simp only [declaredNames, declarationNames, hlocal, htype, Tree.children, List.flatMap_cons,
        List.flatMap_nil, List.append_nil]
    rw [statement_declaration hkind, hnames]
    obtain ⟨here', hs', hhere', hfinds⟩ := (binds_declaration env s v).1 here reserved outer hs
    exact ⟨here', hs', hhere', hfinds.congr (and_iff_left hfree).symm⟩
  · have hnames : declaredNames [t] = [] := by
      rw [declaredNames, List.flatMap_cons, List.flatMap_nil, List.append_nil]
      split
      · exact absurd ‹_› hlocal
      · rfl
    obtain ⟨hscopes, hfinds⟩ := h hlocal env s
    rw [hs] at hscopes hfinds
    rw [hnames]
    refine ⟨here, hscopes, by simp, hfinds.congr ?_⟩
    have htaken : ∀ x, Taken env ((here, reserved) :: outer) x ↔
        Taken env outer x ∨ x ∈ reserved := by
      intro x
      rw [taken_cons, or_iff_right_of_imp (@hhere x)]
    rw [and_iff_right fresh_nil, funext fun x => propext (htaken x)]

/-- The statements of a block, one after another. -/
theorem judged_statements (env : Env) {ts : List Tree} (hforms : ∀ t ∈ ts, Statement t)
    (h : ∀ e ∈ numberFrom n ts, e.2.kind ≠ .localDeclaration → Judged root e.1 e.2)
    (hdeclarations : ∀ e ∈ numberFrom n ts, e.2.kind = .localDeclaration →
      ∀ taken, root.Free taken e.1)
    (warned : Bool) (hs : s.naming.scopes = (here, reserved) :: outer)
    (hhere : here ⊆ reserved) (hts : declaredNames ts ⊆ reserved) :
    ∃ here', (statements env warned s ts).naming.scopes = (here', reserved) :: outer ∧
      Finds (Fresh env here outer (declaredNames ts) ∧
        ∀ e ∈ numberFrom n ts, root.Free (fun x => Taken env outer x ∨ x ∈ reserved) e.1)
        s.naming (statements env warned s ts).naming := by
  induction ts generalizing n warned s here with
  | nil =>
      rw [statements]
      exact ⟨here, hs, .of_clashes_eq rfl ⟨fresh_nil, by simp [numberFrom_nil]⟩⟩
  | cons t ts ih =>
      rw [List.forall_mem_cons] at hforms
      rw [numberFrom_cons, List.forall_mem_cons] at h hdeclarations
      rw [declaredNames_cons, List.append_subset] at hts
      rw [statements, numberFrom_cons, List.forall_mem_cons, declaredNames_cons]
      generalize hentered : s.reportIf (!s.flow.reachable && !warned && t.kind != .emptyStatement)
        .unreachableCode t.span = entered
      have hnaming : entered.naming = s.naming := by
        rw [← hentered, State.naming_reportIf rfl]
      rw [← hnaming] at hs ⊢
      obtain ⟨here', hs', hhere', hfinds⟩ :=
        judged_entry env hforms.1 h.1 hdeclarations.1 hs hhere
      have hreserved : here' ⊆ reserved := by
        intro x hx
        rcases (hhere' x).mp hx with hx | hx
        · exact hts.1 hx
        · exact hhere hx
      obtain ⟨here'', hs'', hfinds'⟩ := ih hforms.2 h.2 hdeclarations.2
        (warned || (!s.flow.reachable && !warned && t.kind != .emptyStatement)) hs' hreserved hts.2
      refine ⟨here'', hs'', (hfinds.trans hfinds').congr ?_⟩
      rw [fresh_append hhere', and_and_and_comm]

end Row

/-- In an empty scope names are fresh if they differ and none is taken around it. -/
theorem fresh_iff {env : Env} {outer : List (List String × List String)} {names : List String} :
    Fresh env [] outer names ↔ names.Nodup ∧ ∀ x ∈ names, ¬Taken env outer x :=
  ⟨fun h => ⟨h.nodup, h.not_taken⟩, fun h => ⟨h.1, by simp, h.2⟩⟩

section Forms

variable {root t : Tree} {id n : Nat} {d : Node} {cs : List Tree}

/-- A statement that says nothing about names is judged so if it is free of overlaps. -/
theorem judged_of_naming_eq (h : ∀ env s, (statement env s t).naming = s.naming)
    (hfree : ∀ taken, root.Free taken id) : Judged root id t := by
  intro env s
  rw [h]
  exact ⟨rfl, .of_clashes_eq rfl (hfree _)⟩

/-- A block is judged by its statements. -/
theorem judged_block (hroot : root.Grammatical) (hid : root.subtree? id = some (.node d cs))
    (hkind : d.kind = .block) (parts : ∀ c ∈ cs, Statement c) (htidy : root.Tidy id)
    (h : ∀ e ∈ numberFrom (id + 1) cs, e.2.kind ≠ .localDeclaration → Judged root e.1 e.2) :
    Judged root id (.node d cs) := by
  intro env s
  have hdeclarations : ∀ e ∈ numberFrom (id + 1) cs, e.2.kind = .localDeclaration →
      ∀ taken, root.Free taken e.1 := by
    intro e he hlocal taken
    have hchild := (childAt_iff hid).mpr he
    obtain ⟨e', v, hv, hkind', part⟩ := (parts e.2 (hchild.mem hid)).exists_declaration hlocal
    refine free_simple (hv ▸ hchild.here) (by simp [hkind']) (by simp [hkind']) ?_
      (htidy.of_below hchild.below)
    intro c hc
    rw [List.mem_singleton.mp hc]
    exact ⟨.variableDeclaration, rfl, part⟩
  have hopen : (s.openScope (declaredNames cs)).naming.scopes =
      ([], declaredNames cs) :: s.naming.scopes := rfl
  obtain ⟨here, hscopes, hfinds⟩ := judged_statements env parts h hdeclarations false
    hopen (List.nil_subset _) (List.Subset.refl _)
  rw [statement_block hkind, State.naming_closeScope, hscopes, free_block hroot hid hkind parts,
    ← fresh_iff]
  exact ⟨rfl, hfinds⟩

/-- **Clashes in a statement are overlaps of its locals.** -/
theorem judged_statement (hroot : root.Grammatical) (h : Statement t)
    (hid : root.subtree? id = some t) (htidy : root.Tidy id)
    (hlocal : t.kind ≠ .localDeclaration) : Judged root id t := by
  induction h generalizing id with
  | @block d cs hkind parts ih =>
      refine judged_block hroot hid hkind parts htidy ?_
      intro e he hlocal
      have hchild := (childAt_iff hid).mpr he
      exact ih e.2 (hchild.mem hid) hchild.here (htidy.of_below hchild.below) hlocal
  | @declaration d t hkind part => exact absurd hkind hlocal
  | @expression d t hkind part =>
      refine judged_of_naming_eq (fun env s => ?_) fun taken =>
        free_simple hid (by simp [hkind]) (by simp [hkind]) ?_ htidy
      · rw [statement_expression hkind, naming_expressionStatement]
      · simpa using ⟨.expression 0, rfl, part⟩
  | @empty d hkind =>
      refine judged_of_naming_eq (fun env s => ?_) fun taken =>
        free_simple hid (by simp [hkind]) (by simp [hkind]) nofun htidy
      rw [statement_empty hkind]
  | @returnNothing d hkind =>
      refine judged_of_naming_eq (fun env s => ?_) fun taken =>
        free_simple hid (by simp [hkind]) (by simp [hkind]) nofun htidy
      rw [statement_return hkind, naming_returnStatement]
  | @returnValue d t hkind part =>
      refine judged_of_naming_eq (fun env s => ?_) fun taken =>
        free_simple hid (by simp [hkind]) (by simp [hkind]) ?_ htidy
      · rw [statement_return hkind, naming_returnStatement]
      · simpa using ⟨.expression 0, rfl, part⟩
  | @ifThen d cond body hkind test branch ih =>
      intro env s
      have hother : d.kind ≠ .block ∧ d.kind ≠ .forStatement := by simp [hkind]
      have hbody := childAt_branch hid
      have hjudged := ih hbody.here (htidy.of_below hbody.below)
        (htidy.ne_declaration hid hother.1 hbody) env (enter env s cond body)
      rw [naming_enter] at hjudged
      rw [statement_ifThen hkind]
      exact ⟨hjudged.1, hjudged.2.congr
        (free_branch hid hother.1 hother.2 test htidy).symm⟩
  | @ifElse d e cond body other hkind helse test branch otherwise ih ihOther =>
      intro env s
      have hbody := childAt_branch hid
      have hclause := childAt_else hid
      have helsewhere := childAt hclause.here [] rfl
      have hjudged := ih hbody.here (htidy.of_below hbody.below)
        (htidy.ne_declaration hid (by simp [hkind]) hbody) env (enter env s cond body)
      have htidyElse := htidy.of_below hclause.below
      rw [naming_enter] at hjudged
      rw [statement_ifElse hkind]
      dsimp only
      generalize statement env (enter env s cond body) body = inner at hjudged
      have hresumed : ({ inner with flow := (enter env s cond body).flow } : State).naming =
          inner.naming := rfl
      generalize ({ inner with flow := (enter env s cond body).flow } : State) = resumed at hresumed
      have hjudged' := ihOther helsewhere.here (htidyElse.of_below helsewhere.below)
        (htidyElse.ne_declaration hclause.here (by simp [helse]) helsewhere) env resumed
      rw [hresumed, hjudged.1] at hjudged'
      exact ⟨hjudged'.1, (hjudged.2.trans hjudged'.2).congr
        (free_ifElse hid hkind helse test htidy).symm⟩
  | @whileLoop d cond body hkind test round ih =>
      intro env s
      have hother : d.kind ≠ .block ∧ d.kind ≠ .forStatement := by simp [hkind]
      have hbody := childAt_branch hid
      have hjudged := ih hbody.here (htidy.of_below hbody.below)
        (htidy.ne_declaration hid hother.1 hbody) env (enter env s cond body)
      rw [naming_enter] at hjudged
      rw [statement_while hkind]
      exact ⟨hjudged.1, hjudged.2.congr
        (free_branch hid hother.1 hother.2 test htidy).symm⟩
  | @forLoop d init cond step body hkind start test next round ih =>
      intro env s
      have hbody := childAt_body hid
      obtain ⟨here, hscopes, hhere, hfinds⟩ :=
        (binds_loopInit env (s.openScope []) init).1 [] [] s.naming.scopes rfl
      have hjudged := ih hbody.here (htidy.of_below hbody.below)
        (htidy.ne_declaration hid (by simp [hkind]) hbody) env
        (enter env (loopInit env (s.openScope []) init) cond body)
      have htaken : ∀ x, Taken env ((here, []) :: s.naming.scopes) x ↔
          Taken env s.naming.scopes x ∨ x ∈ declarationNames init := by
        intro x
        rw [taken_cons, hhere]
        simp
      rw [naming_enter, hscopes, funext fun x => propext (htaken x)] at hjudged
      rw [statement_for hkind, State.naming_withFlow, State.naming_closeScope, naming_round,
        hjudged.1]
      refine ⟨rfl, ((hfinds.congr fresh_iff).trans hjudged.2).congr ?_⟩
      exact (free_for hroot hid hkind start test next round htidy).symm

end Forms

/-! ## Where clashes are found -/

section Places

variable {d : Node} {cs : List Tree} {c : Tree} {v v' : Naming}

/-- What a child places, the node around it places. -/
theorem Places.of_child (h : Places c.subtrees v v') (hc : c ∈ cs) :
    Places (Tree.node d cs).subtrees v v' := by
  refine h.mono ?_
  intro u hu
  rw [subtrees_node]
  exact List.mem_cons_of_mem _ (mem_subtreesOf.mpr ⟨c, hc, hu⟩)

/-- What the children of a child place, the node around it places. -/
theorem Places.of_children (h : Places c.children v v') (hc : c ∈ cs) :
    Places (Tree.node d cs).subtrees v v' := by
  have hsubtrees : c.children ⊆ c.subtrees := fun _ => mem_subtrees_of_child (mem_subtrees_self c)
  exact (h.mono hsubtrees).of_child hc

/-- Statements one after another place what each of them places. -/
theorem places_statements {env : Env} {ts : List Tree}
    (h : ∀ t ∈ ts, ∀ s, Places t.subtrees s.naming (statement env s t).naming) (warned : Bool)
    (s : State) :
    Places (subtreesOf ts) s.naming (statements env warned s ts).naming := by
  induction ts generalizing warned s with
  | nil =>
      rw [statements]
      exact .of_clashes_eq rfl
  | cons t ts ih =>
      rw [List.forall_mem_cons] at h
      rw [statements, subtreesOf_cons]
      have hhere := h.1 (s.reportIf (!s.flow.reachable && !warned && t.kind != .emptyStatement)
        .unreachableCode t.span)
      rw [State.naming_reportIf rfl] at hhere
      exact (hhere.mono (List.subset_append_left _ _)).trans
        ((ih h.2 _ _).mono (List.subset_append_right _ _))

/-- **Clashes are found in the statement** that has them, in a tidy tree or not. -/
theorem places_statement {t : Tree} (h : Statement t) (env : Env) (s : State) :
    Places t.subtrees s.naming (statement env s t).naming := by
  induction h generalizing s with
  | @block d cs hkind _ ih =>
      have hbody := places_statements ih false (s.openScope (declaredNames cs))
      rw [statement_block hkind, State.naming_closeScope, subtrees_node]
      exact hbody.mono (List.subset_cons_self _ _)
  | @declaration d t hkind _ =>
      rw [statement_declaration hkind]
      exact (binds_declaration env s t).2.of_children List.mem_cons_self
  | expression hkind _ =>
      rw [statement_expression hkind, naming_expressionStatement]
      exact .of_clashes_eq rfl
  | empty hkind =>
      rw [statement_empty hkind]
      exact .of_clashes_eq rfl
  | returnNothing hkind | returnValue hkind _ =>
      rw [statement_return hkind, naming_returnStatement]
      exact .of_clashes_eq rfl
  | @ifThen d cond body hkind _ _ ih =>
      have hbody := ih (enter env s cond body)
      rw [naming_enter] at hbody
      rw [statement_ifThen hkind]
      exact hbody.of_child (by simp)
  | @ifElse d e cond body other hkind _ _ _ _ ih ihOther =>
      have hbody := ih (enter env s cond body)
      rw [naming_enter] at hbody
      have hother := ihOther { statement env (enter env s cond body) body with
        flow := (enter env s cond body).flow }
      rw [statement_ifElse hkind]
      exact Places.trans (hbody.of_child (by simp))
        ((hother.of_child (d := e) (List.mem_singleton_self other)).of_child (by simp))
  | @whileLoop d cond body hkind _ _ ih =>
      have hbody := ih (enter env s cond body)
      rw [naming_enter] at hbody
      rw [statement_while hkind]
      exact hbody.of_child (by simp)
  | @forLoop d init cond step body hkind _ _ _ _ ih =>
      have hstart := (binds_loopInit env (s.openScope []) init).2
      have hbody := ih (enter env (loopInit env (s.openScope []) init) cond body)
      rw [naming_enter] at hbody
      rw [statement_for hkind]
      change Places _ s.naming
        (round env (loopInit env (s.openScope []) init) cond body [step]).closeScope.naming
      rw [State.naming_closeScope, naming_round]
      exact Places.trans (hstart.of_children List.mem_cons_self) (hbody.of_child (by simp))

end Places

/-! ## Methods -/

section Members

variable {s : State}

/-- Parameters are no locals. -/
theorem naming_parameters (s : State) (known : List (String × Ty)) (ts : List Tree) :
    (parameters s known ts).2.naming = s.naming := by
  induction ts generalizing s known with
  | nil => rfl
  | cons t ts ih =>
      rw [parameters]
      split
      · rw [ih, State.naming_reportIf rfl]
      · exact ih s known

/-- The declarators of a field declare no locals. -/
theorem naming_fieldDeclarator (className : String) (type : Ty) (m : Members) (s : State)
    (t : Tree) : (fieldDeclarator className type m s t).2.naming = s.naming := by
  rw [fieldDeclarator]
  split
  · exact State.naming_reportIf rfl _ _
  · rfl

/-- Members declare no locals when they are collected. -/
theorem naming_member (className : String) (m : Members) (s : State) (t : Tree) :
    (member className m s t).2.naming = s.naming := by
  rw [member.eq_def]
  split
  · split
    · exact foldl_steps (R := fun p q : Members × State => q.2.naming = p.2.naming) (fun _ => rfl)
        (fun h h' => h'.trans h) (fun p d => naming_fieldDeclarator className _ p.1 p.2 d) (m, s) _
    · rfl
  · dsimp only
    split
    · exact State.naming_report rfl _
    · rfl
  · rfl

/-- Collecting the members of a class declares no locals. -/
theorem naming_collected (name : String) (s : State) (ts : List Tree) :
    (collected name s ts).2.naming = s.naming := by
  refine foldl_steps (R := fun p q : Members × State => q.2.naming = p.2.naming) (fun _ => rfl)
    (fun h h' => h'.trans h) (fun p t => naming_member name p.1 p.2 t) ((⟨[], [], []⟩, s)) ts

/-- The initializers of fields declare no locals. -/
theorem naming_initialized (m : Members) (s : State) : (initialized m s).naming = s.naming := by
  refine State.naming_foldl (fun s e => ?_) s _
  rw [initializer, State.naming_convert, naming_expression, State.naming_withFlow]

/-- The names that a method knows are those of its parameters. -/
theorem isSome_parameters (s : State) (ts : List Tree) (x : String) :
    (typeIn? (parameters s [] ts).1 x).isSome = true ↔
      ∃ p ∈ ts, ∃ type, p.kind = .parameter x type := by
  rw [Option.isSome_iff_ne_none, Ne, typeIn?_eq_none, not_not, parameters_eq]
  simp only [List.append_nil, List.map_reverse, List.mem_reverse, List.map_map, List.mem_map,
    Typing.parametersOf, List.mem_filterMap]
  constructor
  · rintro ⟨e, ⟨p, hp, he⟩, rfl⟩
    split at he
    · rename_i name type hkind
      cases he
      exact ⟨p, hp, type, hkind⟩
    · cases he
  · rintro ⟨p, hp, type, hkind⟩
    exact ⟨(x, type), ⟨p, hp, by rw [hkind]⟩, rfl⟩

end Members

/-- What is found about names in a method: it is found there, and in a tidy method there is
something just if locals clash. -/
structure Verdict (root u : Tree) (new : List (Finding × Span)) : Prop where
  located : ∀ f ∈ new, ∃ w ∈ u.subtrees, w.span = f.2
  exact : ∀ m, root.subtree? m = some u → root.Tidy m → (new = [] ↔ ¬root.Clash m)

/-- There are no scopes just if there are no names in scope. -/
theorem State.scopes_naming {s : State} : s.naming.scopes = [] ↔ s.names = [] := by
  rw [State.naming, State.names, List.map_eq_nil_iff, List.map_eq_nil_iff]

/-- **A method gets its verdict**, and leaves no scope open. -/
theorem exists_verdict {root u : Tree} (hroot : root.Grammatical) (h : Conforms .member u)
    (hmethod : u.kind.isMethod = true) (ms : Members) (s : State) (hs : s.naming.scopes = []) :
    ∃ new, Verdict root u new ∧ (method ms s u).naming = ⟨[], new ++ s.naming.clashes⟩ := by
  obtain ⟨name, mods, type, hkind⟩ : ∃ name mods type, u.kind = .methodDecl name mods type := by
    cases hkind : u.kind with
    | methodDecl name mods type => exact ⟨name, mods, type, rfl⟩
    | _ => simp [hkind, Kind.isMethod] at hmethod
  obtain ⟨ps, last, hchildren, hlast⟩ := h.exists_last hmethod
  have hgetLast : u.children.getLast? = some last := by rw [hchildren, List.getLast?_concat]
  have heq := method_eq ms s hkind hgetLast hlast
  dsimp only at heq
  have hentered : ({ (parameters s [] u.children.dropLast).2 with flow := .entry } : State).naming =
      s.naming := naming_parameters s [] u.children.dropLast
  generalize ({ (parameters s [] u.children.dropLast).2 with flow := .entry } : State) = entered
    at heq hentered
  obtain ⟨env, henv⟩ : ∃ env, env = envOf ms s u name type := ⟨_, rfl⟩
  rw [← henv] at heq
  have hclosed : (statement env entered last).naming.scopes = [] := by
    have haligned := (passes_statement hlast.body env entered 0).aligned []
      (State.scopes_naming.mp (by rw [hentered, hs]))
    rw [after_body hlast] at haligned
    exact State.scopes_naming.mpr haligned
  obtain ⟨new, hnew, hlocated⟩ := places_statement hlast.body env entered
  have hlastMem : last ∈ u.children := List.mem_of_getLast? hgetLast
  refine ⟨new, ⟨?_, ?_⟩, ?_⟩
  · intro f hf
    obtain ⟨w, hw, hspan⟩ := hlocated f hf
    refine ⟨w, ?_, hspan⟩
    obtain ⟨d, cs⟩ := u
    rw [subtrees_node]
    exact List.mem_cons_of_mem _ (mem_subtreesOf.mpr ⟨last, hlastMem, hw⟩)
  · intro m hm htidy
    obtain ⟨id, last', hid, hlast', -, hfree, hparameters⟩ :=
      exists_body_free hm h hmethod htidy
    obtain rfl := Option.some.inj (hlast'.symm.trans hgetLast)
    have hjudged := (judged_statement hroot hlast.body hid.here (htidy.of_below hid.below)
      (by simp [hlast.kind_body]) env entered).2
    have htaken : ∀ x, Taken env entered.naming.scopes x ↔ root.HasParameter m x := by
      intro x
      rw [hparameters, ← isSome_parameters s, Taken, hentered, hs, henv]
      simp [envOf]
    obtain ⟨new', hnew', hfine⟩ := hjudged
    obtain rfl := List.append_cancel_right (hnew'.symm.trans hnew)
    rw [hfine, funext fun x => propext (htaken x), ← hfree, free_iff_not_clash hroot hm hmethod]
  · rw [heq, State.naming_reportIf rfl, ← hentered]
    exact Naming.ext hclosed hnew

/-- Behind the checks of certain methods all that is found about names comes from their verdicts,
and is kept. -/
structure Gathers (root : Tree) (checked : Tree → Prop) (v v' : Naming) : Prop where
  closed : v'.scopes = []
  kept : v.clashes ⊆ v'.clashes
  traced : ∀ f ∈ v'.clashes, f ∈ v.clashes ∨
    ∃ u, checked u ∧ ∃ new, Verdict root u new ∧ f ∈ new
  gathered : ∀ u, checked u → ∃ new, Verdict root u new ∧ new ⊆ v'.clashes

namespace Gathers

variable {root : Tree} {checked checked' : Tree → Prop} {v v' v'' : Naming}

/-- Where nothing is checked nothing is gathered. -/
theorem none (h : v.scopes = []) (hnone : ∀ u, ¬checked u) : Gathers root checked v v :=
  ⟨h, List.Subset.refl _, fun _ hf => .inl hf, fun u hu => absurd hu (hnone u)⟩

/-- What is gathered by two checks, one after the other, is what either gathers. -/
theorem trans (h : Gathers root checked v v') (h' : Gathers root checked' v' v'') :
    Gathers root (fun u => checked u ∨ checked' u) v v'' where
  closed := h'.closed
  kept := List.Subset.trans h.kept h'.kept
  traced f hf := by
    rcases h'.traced f hf with hf | ⟨u, hu, hnew⟩
    · rcases h.traced f hf with hf | ⟨u, hu, hnew⟩
      · exact .inl hf
      · exact .inr ⟨u, .inl hu, hnew⟩
    · exact .inr ⟨u, .inr hu, hnew⟩
  gathered u hu := by
    rcases hu with hu | hu
    · obtain ⟨new, hverdict, hnew⟩ := h.gathered u hu
      exact ⟨new, hverdict, List.Subset.trans hnew h'.kept⟩
    · exact h'.gathered u hu

/-- What is gathered depends only on what is checked. -/
theorem congr (h : Gathers root checked v v') (hchecked : ∀ u, checked u ↔ checked' u) :
    Gathers root checked' v v' := by
  rwa [← funext fun u => propext (hchecked u)]

/-- One check after another. -/
theorem foldl (op : State → Tree → State) {checks : Tree → Tree → Prop} {ts : List Tree}
    (h : ∀ t ∈ ts, ∀ s, s.naming.scopes = [] →
      Gathers root (checks t) s.naming (op s t).naming) (s : State) (hs : s.naming.scopes = []) :
    Gathers root (fun u => ∃ t ∈ ts, checks t u) s.naming (ts.foldl op s).naming := by
  induction ts generalizing s with
  | nil => exact none hs (by simp)
  | cons t ts ih =>
      rw [List.forall_mem_cons] at h
      have hhere := h.1 s hs
      exact (hhere.trans (ih h.2 (op s t) hhere.closed)).congr fun u => by simp

/-- Checking a method gathers the clashes in its body. -/
theorem method (hroot : root.Grammatical) {u : Tree} (h : Conforms .member u) (ms : Members)
    (s : State) (hs : s.naming.scopes = []) :
    Gathers root (fun w => w = u ∧ u.kind.isMethod = true) s.naming
      (Check.method ms s u).naming := by
  by_cases hmethod : u.kind.isMethod = true
  · obtain ⟨new, hverdict, heq⟩ := exists_verdict hroot h hmethod ms s hs
    rw [heq]
    refine ⟨rfl, List.subset_append_right _ _, ?_, ?_⟩
    · intro f hf
      rcases List.mem_append.mp hf with hf | hf
      · exact .inr ⟨u, ⟨rfl, hmethod⟩, new, hverdict, hf⟩
      · exact .inl hf
    · rintro w ⟨rfl, -⟩
      exact ⟨new, hverdict, List.subset_append_left _ _⟩
  · have hsame : Check.method ms s u = s := by
      unfold Check.method
      split
      · rename_i hkind _
        rw [hkind] at hmethod
        exact absurd rfl hmethod
      · rfl
    rw [hsame]
    exact none hs fun w hw => hmethod hw.2

/-- In a class the methods are checked. -/
theorem classDecl (hroot : root.Grammatical) {sym : Symbol} {t : Tree} (h : Conforms sym t)
    (s : State) (hs : s.naming.scopes = []) :
    Gathers root (fun u => u ∈ t.children ∧ u.kind.isMethod = true) s.naming
      (Check.classDecl s t).naming := by
  rcases h.classes_have_members with ⟨name, mods, hkind, hmembers⟩ | ⟨hkind, hchildren⟩
  · have hbefore : (initialized (collected name s t.children).1
        (collected name s t.children).2).naming = s.naming := by
      rw [naming_initialized, naming_collected]
    have hmethods := foldl (Check.method (collected name s t.children).1)
      (fun c hc s hs => method hroot (hmembers c hc) _ s hs) _ (by rw [hbefore, hs])
    rw [classDecl_eq hkind]
    rw [hbefore] at hmethods
    refine hmethods.congr fun u => ?_
    constructor
    · rintro ⟨c, hc, rfl, hmethod⟩
      exact ⟨hc, hmethod⟩
    · intro ⟨hu, hmethod⟩
      exact ⟨u, hu, rfl, hmethod⟩
  · rw [classDecl_other hkind]
    refine none hs ?_
    intro u ⟨hu, hmethod⟩
    rw [hchildren u hu] at hmethod
    cases hmethod

/-- In a whole tree all methods are checked. -/
theorem findings (hroot : root.Grammatical) :
    Gathers root (fun u => u ∈ root.subtrees ∧ u.kind.isMethod = true) State.initial.naming
      (root.subtrees.foldl Check.classDecl .initial).naming := by
  have hclasses : ∀ t ∈ root.subtrees, ∀ s, s.naming.scopes = [] →
      Gathers root (fun u => u ∈ t.children ∧ u.kind.isMethod = true) s.naming
        (Check.classDecl s t).naming := by
    intro t ht s hs
    obtain ⟨sym, hconforms⟩ := hroot.of_mem_subtrees ht
    exact classDecl hroot hconforms s hs
  refine (foldl Check.classDecl hclasses .initial rfl).congr fun u => ?_
  constructor
  · intro ⟨t, ht, hu, hmethod⟩
    exact ⟨mem_subtrees_of_child ht hu, hmethod⟩
  · intro ⟨hu, hmethod⟩
    rcases eq_or_child_of_mem hu with rfl | ⟨v, hv, hu⟩
    · rw [hroot.isMethod_of_ne_member (by decide)] at hmethod
      cases hmethod
    · exact ⟨v, hv, hu, hmethod⟩

end Gathers

/-- **The clashes that are found** are those among the findings. -/
theorem mem_clashes {t : Tree} {f : Finding × Span} :
    f ∈ (t.subtrees.foldl classDecl .initial).naming.clashes ↔
      f ∈ findings t ∧ f.1.isClash = true := by
  rw [State.naming, List.mem_filter, findings, List.mem_reverse]

end Check

open Check in
/-- **Overlapping locals are reported exactly.**  In a method in which declarations stand in blocks
a name is reported for being taken just if two locals of one name have scopes one of which contains
or equals the other, or a local has the name of a parameter. -/
theorem check_clash {source : Text} {d : Document} (h : parse source = .ok d) {m : Nat} {s : Tree}
    (hs : d.tree.subtree? m = some s) (hmethod : s.kind.isMethod = true)
    (htidy : d.tree.Tidy m) :
    (∃ diagnostic ∈ check d, (diagnostic.code = "CS0128" ∨ diagnostic.code = "CS0136") ∧
        s.span.start ≤ diagnostic.span.start ∧ diagnostic.span.stop ≤ s.span.stop) ↔
      d.tree.Clash m := by
  obtain ⟨-, -, -, -, -, hgrammatical, -⟩ := conforms_of_parse h
  have hlaid := (laid_of_parse h).2.1
  have hm : m ∈ d.tree.methods := mem_methods.mpr ⟨s, hs, hmethod⟩
  have hgathers := Gathers.findings hgrammatical
  constructor
  · intro hreported
    obtain ⟨diagnostic, hdiagnostic, hcode, hwithin⟩ := hreported
    obtain ⟨f, hf, rfl⟩ := List.mem_map.mp hdiagnostic
    have hclash := mem_clashes.mpr ⟨hf, Finding.isClash_iff.mpr hcode⟩
    rcases hgathers.traced f hclash with hnone | ⟨u, ⟨hu, hmethod'⟩, new, hverdict, hnew⟩
    · cases hnone
    · -- The finding lies within the method that it is about, which is no other than this one.
      obtain ⟨n, hn⟩ := List.getElem?_of_mem hu
      have hother : n ∈ d.tree.methods := mem_methods.mpr ⟨u, hn, hmethod'⟩
      obtain ⟨w, hw, hspan⟩ := hverdict.located f hnew
      have hinside := (hlaid.of_mem_subtrees u hu).within hw
      have hnonempty : w.span.start < w.span.stop := by
        have hne := hgrammatical.ne_zero_of_mem_methods hother
        obtain ⟨k, rfl⟩ := Nat.exists_eq_succ_of_ne_zero hne
        obtain ⟨j, hj⟩ := List.getElem?_of_mem hw
        have hsub := (subtree?_trans hn hj).1
        rw [Nat.succ_add] at hsub
        exact nonempty_of_parse h hsub
      rw [hspan] at hinside hnonempty
      obtain rfl := eq_of_within_methods h hm hother hs hn hnonempty hwithin hinside
      obtain rfl := Option.some.inj (hn.symm.trans hs)
      by_contra hnot
      rw [(hverdict.exact m hs htidy).mpr hnot] at hnew
      cases hnew
  · intro hclash
    have hmem : s ∈ d.tree.subtrees := List.mem_of_getElem? hs
    obtain ⟨new, hverdict, hkept⟩ := hgathers.gathered s ⟨hmem, hmethod⟩
    have hfound : new ≠ [] := fun hnone => (hverdict.exact m hs htidy).mp hnone hclash
    obtain ⟨f, hf⟩ := List.exists_mem_of_ne_nil new hfound
    obtain ⟨w, hw, hspan⟩ := hverdict.located f hf
    obtain ⟨hreported, hcode⟩ := mem_clashes.mp (hkept hf)
    have hinside := (hlaid.of_mem_subtrees s hmem).within hw
    rw [hspan] at hinside
    exact ⟨_, List.mem_map.mpr ⟨f, hreported, rfl⟩, Finding.isClash_iff.mp hcode, hinside⟩

/-- A local in a block clashes with a later one around the block, but not with one beside it. -/
theorem check_clash_inner : ∃ d,
    parse "class A { void F() { { int x; } int x; } void G() { { int x; } { int x; } } }".toList
      = .ok d ∧ d.tree.Clash 2 ∧ ¬d.tree.Clash 11 := by
  let reported (d : Document) (s : Tree) : Bool := (check d).any fun diagnostic =>
    decide ((diagnostic.code = "CS0128" ∨ diagnostic.code = "CS0136") ∧
      s.span.start ≤ diagnostic.span.start ∧ diagnostic.span.stop ≤ s.span.stop)
  have hread : (parse
      "class A { void F() { { int x; } int x; } void G() { { int x; } { int x; } } }".toList
      ).toOption.any (fun d => d.tree.declaresInBlocks &&
        ((d.tree.subtree? 2).any (fun s => s.kind.isMethod && reported d s) &&
          (d.tree.subtree? 11).any (fun s => s.kind.isMethod && !reported d s))) = true := by
    decide +kernel
  obtain ⟨d, hd, hfacts⟩ := exists_document_of_any hread
  rw [Bool.and_eq_true, Bool.and_eq_true, Option.any_eq_true, Option.any_eq_true] at hfacts
  obtain ⟨htidy, ⟨s, hs, hfirst⟩, u, hu, hsecond⟩ := hfacts
  rw [Bool.and_eq_true] at hfirst hsecond
  refine ⟨d, hd, ?_, ?_⟩
  · rw [← check_clash hd hs hfirst.1 (tidy_of_declaresInBlocks htidy 2)]
    simpa [reported] using hfirst.2
  · rw [← check_clash hd hu hsecond.1 (tidy_of_declaresInBlocks htidy 11)]
    simpa [reported] using hsecond.2

end SharpMutants
