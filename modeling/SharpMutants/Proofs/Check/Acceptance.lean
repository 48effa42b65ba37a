import SharpMutants.Proofs.Check.WellTyped
import SharpMutants.Proofs.Check.Assignment

/-!
# Accepted programs are well typed

If no error is found in a class, the check has the members of the class that the typing rules
go by (`collected_eq`), and it checks in silence each initializer of a field, with no parameters
and no locals, and each body, under the parameters of its method; so the class is well typed
(`sound_class`).  Whatever a check has found before, the type `unknown` is not given in silence.
Main statement: `check_wellTyped`.
-/

namespace SharpMutants

namespace Check

open Typing

variable {s s' : State}

/-! ## Members -/

/-- The initializers of the fields that members of a class declare, with their types. -/
def initializersOf (members : List Tree) : List (Tree × Ty) :=
  members.flatMap fun t =>
    match t.kind, t.children with
    | .fieldDecl _, declaration :: _ =>
      match declaration.kind with
      | .variableDeclaration type =>
        declaration.children.flatMap fun c => c.children.map fun init => (init, Ty.ofName type)
      | _ => []
    | _, _ => []

/-- The members of a class as the typing rules see them. -/
def declaredMembers (members : List Tree) : Members :=
  ⟨((fieldsOf members).map typed).reverse,
    (methodsOf members).map fun m => (m.name, m.signature), initializersOf members⟩

/-- Reading the declarators of a field adds its names, with their type, and its initializers. -/
theorem foldl_fieldDeclarator (className : String) {type : TypeName} {ts : List Tree}
    (h : ∀ t ∈ ts, Conforms .variableDeclarator t) (m : Members) (s : State) :
    (ts.foldl (fun p d => fieldDeclarator className (Ty.ofName type) p.1 p.2 d) (m, s)).1 =
      ⟨((ofType type ts).map typed).reverse ++ m.fields, m.methods, m.initializers ++
        ts.flatMap fun c => c.children.map fun init => (init, Ty.ofName type)⟩ := by
  induction ts generalizing m s with
  | nil => simp [ofType, declaratorNames]
  | cons t ts ih =>
      rw [List.forall_mem_cons] at h
      obtain ⟨d, name, hkind, hform⟩ := h.1.declarator
      have hkind' : t.kind = .variableDeclarator name := by
        rcases hform with rfl | ⟨init, rfl, -⟩ <;> exact hkind
      have hinit : t.children.head?.toList = t.children := by
        rcases hform with rfl | ⟨init, rfl, -⟩ <;> rfl
      have hhere : (fieldDeclarator className (Ty.ofName type) m s t).1 =
          ⟨(name, Ty.ofName type) :: m.fields, m.methods,
            m.initializers ++ t.children.map fun init => (init, Ty.ofName type)⟩ := by
        rw [fieldDeclarator, hkind']
        dsimp only
        rw [hinit]
      rw [List.foldl_cons, ih h.2, hhere, ofType_cons hkind', List.flatMap_cons]
      simp [typed]

/-- A method is entered with the types of its parameters and its result. -/
theorem signatureOf_eq (result : TypeName) (children : List Tree) (name : String) :
    signatureOf result children =
      (⟨name, (parametersOf children).map Prod.snd, result⟩ : Method).signature := by
  rw [signatureOf, Method.signature, parametersOf, List.map_filterMap, List.map_filterMap]
  congr 2
  funext t
  generalize t.kind = k
  cases k <;> rfl

section Member

variable {className : String} {done : List Tree} {t : Tree}

/-- The members that are declared grow by those of the next tree. -/
theorem declaredMembers_concat (done : List Tree) (t : Tree) : declaredMembers (done ++ [t]) =
    ⟨((fieldsOf [t]).map typed).reverse ++ (declaredMembers done).fields,
      (declaredMembers done).methods ++ (methodsOf [t]).map fun m => (m.name, m.signature),
      (declaredMembers done).initializers ++ initializersOf [t]⟩ := by
  rw [declaredMembers, declaredMembers, fieldsOf, methodsOf, initializersOf, List.flatMap_append,
    List.filterMap_append, List.flatMap_append, List.map_append, List.map_append,
    List.reverse_append]
  rfl

/-- Without an error, a member adds what it declares. -/
theorem member_eq (h : Conforms .member t)
    (hs : Silent s (member className (declaredMembers done) s t).2) :
    (member className (declaredMembers done) s t).1 = declaredMembers (done ++ [t]) := by
  obtain @⟨_, d, ss, cs, rule, -, children⟩ := h
  generalize hkind : d.kind = k at rule
  cases rule with
  | fieldDecl ms =>
      obtain ⟨declaration, rfl, hdeclaration⟩ := exists_eq_singleton children
      obtain ⟨type, hdeclared, hdeclarators⟩ := hdeclaration.declaration
      have hk : (Tree.node d [declaration]).kind = .fieldDecl ms := hkind
      have hmember : ∀ m s, member className m s (.node d [declaration]) =
          declaration.children.foldl
            (fun p c => fieldDeclarator className (Ty.ofName type) p.1 p.2 c) (m, s) := by
        intro m s
        rw [member, hk]
        dsimp only [Tree.children]
        rw [hdeclared]
      have hfields : fieldsOf [.node d [declaration]] = ofType type declaration.children := by
        rw [fieldsOf, List.flatMap_singleton, hk]
        show declared declaration = _
        rw [declared, hdeclared]
      have hmethods : methodsOf [.node d [declaration]] = [] := by
        rw [methodsOf, List.filterMap_cons, hk]
        rfl
      have hinitializers : initializersOf [.node d [declaration]] =
          declaration.children.flatMap fun c =>
            c.children.map fun init => (init, Ty.ofName type) := by
        rw [initializersOf, List.flatMap_singleton, hk]
        dsimp only [Tree.children]
        rw [hdeclared]
      rw [hmember, foldl_fieldDeclarator className hdeclarators, declaredMembers_concat, hfields,
        hmethods, hinitializers, List.map_nil, List.append_nil]
  | methodDecl name ms result n =>
      have hk : (Tree.node d cs).kind = .methodDecl name ms result := hkind
      have hfields : fieldsOf [.node d cs] = [] := by
        rw [fieldsOf, List.flatMap_singleton, hk]
      have hmethods : methodsOf [.node d cs] = [⟨name, (parametersOf cs).map Prod.snd, result⟩] := by
        rw [methodsOf, List.filterMap_cons, hk]
        rfl
      have hinitializers : initializersOf [.node d cs] = [] := by
        rw [initializersOf, List.flatMap_singleton, hk]
      rw [declaredMembers_concat, hfields, hmethods, hinitializers]
      rw [member, hk] at hs ⊢
      dsimp only [Tree.children] at hs ⊢
      split at hs
      · exact absurd hs (Silent.not_report rfl)
      · rename_i hnew
        rw [if_neg hnew, signatureOf_eq result cs name]
        simp

end Member

/-- Without an error, the members of a class are those that the typing rules go by. -/
theorem collected_eq {name : String} {ts : List Tree} (h : ∀ t ∈ ts, Conforms .member t)
    (hs : Silent s (collected name s ts).2) : (collected name s ts).1 = declaredMembers ts := by
  have hfold : ∀ (ts done : List Tree) (s : State), (∀ t ∈ ts, Conforms .member t) →
      Silent s (ts.foldl (fun p c => member name p.1 p.2 c) (declaredMembers done, s)).2 →
      (ts.foldl (fun p c => member name p.1 p.2 c) (declaredMembers done, s)).1 =
        declaredMembers (done ++ ts) := by
    intro ts
    induction ts with
    | nil =>
        intro done s _ _
        rw [List.append_nil]
        rfl
    | cons t ts ih =>
        intro done s h hs
        rw [List.forall_mem_cons] at h
        rw [List.foldl_cons] at hs ⊢
        have hrest : Quiet (member name (declaredMembers done) s t).2 (ts.foldl
            (fun p c => member name p.1 p.2 c) (member name (declaredMembers done) s t)).2 :=
          Quiet.foldl Prod.snd (fun p c => quiet_member name p.1 p.2 c) _ ts
        obtain ⟨hhere, hs⟩ :=
          hs.split (quiet_member name (declaredMembers done) s t).findings.suffix
            hrest.findings.suffix
        have heq : member name (declaredMembers done) s t =
            (declaredMembers (done ++ [t]), (member name (declaredMembers done) s t).2) :=
          Prod.ext (member_eq h.1 hhere) rfl
        rw [heq] at hs ⊢
        exact (ih (done ++ [t]) _ h.2 hs).trans
          (congrArg declaredMembers (List.append_assoc done [t] ts))
  exact hfold ts [] s h hs

/-- Reading parameters adds them with their types to what is known. -/
theorem parameters_eq (s : State) (known : List (String × Ty)) (ts : List Tree) :
    (parameters s known ts).1 = ((parametersOf ts).map typed).reverse ++ known := by
  induction ts generalizing s known with
  | nil => rfl
  | cons t ts ih =>
      rw [parameters, parametersOf, List.filterMap_cons]
      cases t.kind with
      | parameter name type =>
          dsimp only
          rw [ih]
          simp [parametersOf, typed]
      | _ => exact ih s known

/-- The environment in which a class is checked suits the context of its members. -/
theorem suits_declaredMembers (members : List Tree) {known : List (String × Ty)}
    {vs : List (String × TypeName)} (hknown : ∀ v, v ∈ known ↔ v ∈ vs.map typed)
    (result : TypeName) (name : String) :
    (⟨fieldsOf members, methodsOf members, vs, result, []⟩ : Context).Suits
      ⟨(declaredMembers members).fields, (declaredMembers members).methods, known,
        Ty.ofName result, name⟩ where
  fields v := List.mem_reverse
  methods m hm := by
    obtain ⟨m', hm', rfl⟩ := List.mem_map.mp hm
    exact ⟨m', hm', rfl⟩
  parameters := hknown
  result := rfl

/-! ## Classes -/

theorem types_eq_nil (h : s.names = []) : s.types = [] := by
  rw [State.names, List.map_eq_nil_iff] at h
  rw [State.types, h]
  rfl

/-- If no error is found later on, none was found before. -/
theorem Grows.clean (h : Grows s s') (hclean : s'.Clean) : s.Clean :=
  fun f hf => hclean f (h.findings f hf)

/-- The initializers of a field are expressions, and among those of the class. -/
theorem mem_initializersOf {members : List Tree} {t declaration c init : Tree} {ms : List Modifier}
    {type : TypeName} (ht : t ∈ members) (h : Conforms .member t) (hkind : t.kind = .fieldDecl ms)
    (hdeclaration : declaration ∈ t.children)
    (hdeclared : declaration.kind = .variableDeclaration type) (hc : c ∈ declaration.children)
    (hinit : init ∈ c.children) :
    (init, Ty.ofName type) ∈ initializersOf members ∧ Conforms (.expression 0) init := by
  obtain @⟨_, d, ss, cs, rule, -, children⟩ := h
  rw [show d.kind = .fieldDecl ms from hkind] at rule
  cases rule
  obtain ⟨only, rfl, honly⟩ := exists_eq_singleton children
  obtain rfl := List.mem_singleton.mp hdeclaration
  obtain ⟨_, -, hdeclarators⟩ := honly.declaration
  constructor
  · rw [initializersOf, List.mem_flatMap]
    refine ⟨_, ht, ?_⟩
    rw [hkind]
    dsimp only [Tree.children]
    rw [hdeclared]
    exact List.mem_flatMap.mpr ⟨c, hc, List.mem_map_of_mem hinit⟩
  · obtain ⟨_, _, -, rfl | ⟨value, rfl, hvalue⟩⟩ := (hdeclarators c hc).declarator
    · exact absurd hinit List.not_mem_nil
    · obtain rfl := List.mem_singleton.mp hinit
      exact hvalue

section Class

variable {t : Tree} {name : String} {ms : List Modifier}

/-- The initializer of a field is typed without parameters or locals. -/
theorem sound_initializer {members : List Tree} {init : Tree} {type : TypeName}
    (h : Conforms (.expression 0) init) (hnames : s.names = [])
    (hclean : (initializer (declaredMembers members) s init (Ty.ofName type)).Clean) :
    ∃ a, HasType ⟨fieldsOf members, methodsOf members, [], .void, []⟩ init a ∧
      Converts a (Ty.ofName type) := by
  obtain ⟨env, henv⟩ : ∃ env : Env, env = ⟨(declaredMembers members).fields,
    (declaredMembers members).methods, [], Ty.ofName .void, ""⟩ := ⟨_, rfl⟩
  have hnone : ∀ v, v ∈ ([] : List (String × Ty)) ↔ v ∈ ([] : List (String × TypeName)).map typed :=
    fun v => by rw [List.map_nil]
  have hΓ := suits_declaredMembers members hnone .void ""
  rw [← henv] at hΓ
  have heq : initializer (declaredMembers members) s init (Ty.ofName type) =
      (expression env { s with flow := .entry } init).2.convert
        (expression env { s with flow := .entry } init).1 (Ty.ofName type) init.span := by
    rw [henv]
    rfl
  have hsilent := Silent.of_clean (keeps_initializer _ s init (Ty.ofName type)).findings hclean
  rw [heq] at hsilent
  obtain ⟨hs, hconvert⟩ := hsilent.split (suffix_expression env _ init)
    (Quiet.convert _ _ _ _).findings.suffix
  obtain ⟨htyped, -⟩ :=
    typed_expression hΓ h { s with flow := .entry } (types_eq_nil hnames) hs
  obtain ⟨-, hconverts⟩ := hconvert.convert htyped.ne_unknown (ofName_ne_unknown type)
  exact ⟨_, htyped, hconverts⟩

/-- The body of a method is well typed under its parameters. -/
theorem sound_method {members : List Tree} {type : TypeName} {last : Tree}
    (hkind : t.kind = .methodDecl name ms type) (h : Conforms .member t)
    (hlast : t.children.getLast? = some last) (hnames : s.names = [])
    (hclean : (method (declaredMembers members) s t).Clean) :
    WellTyped ⟨fieldsOf members, methodsOf members, parametersOf t.children, type, []⟩ last := by
  obtain ⟨ps, body, hchildren, hbody⟩ := h.exists_last (by rw [hkind]; rfl)
  obtain rfl : body = last := by
    rw [hchildren, List.getLast?_concat] at hlast
    exact Option.some.inj hlast
  have hparameters : parametersOf t.children = parametersOf t.children.dropLast := by
    have hnone : parametersOf [body] = [] := by
      rw [parametersOf, List.filterMap_cons, hbody.kind_body]
      rfl
    rw [hchildren, List.dropLast_concat, parametersOf, List.filterMap_append]
    exact (congrArg _ hnone).trans (List.append_nil _)
  obtain ⟨entered, -, hentered, -, heq⟩ := exists_entered (declaredMembers members) s hkind hlast hbody
  have hΓ : (⟨fieldsOf members, methodsOf members, parametersOf t.children, type, []⟩ :
      Context).Suits (envOf (declaredMembers members) s t name type) := by
    apply suits_declaredMembers
    intro v
    rw [parameters_eq, ← hparameters, List.append_nil, List.mem_reverse]
  rw [heq] at hclean
  have hpassed := (passes_statement hbody.body (envOf (declaredMembers members) s t name type)
    entered 0).findings
  have hsilent := Silent.of_clean hpassed ((Grows.reportIf _ _ _ _).clean hclean)
  exact (sound_statement hbody.body _ _ _ hΓ (types_eq_nil (hentered.trans hnames)) hsilent).1

/-- A class without errors is well typed. -/
theorem sound_class (hkind : t.kind = .classDecl name ms)
    (h : ∀ c ∈ t.children, Conforms .member c) (hnames : s.names = [])
    (hclean : (classDecl s t).Clean) : ClassTyped t.children := by
  obtain ⟨m, s₁, hcollected⟩ : ∃ m s₁, collected name s t.children = (m, s₁) := ⟨_, _, rfl⟩
  have hfirst : Quiet s s₁ := by
    have hquiet := quiet_collected name s t.children
    rwa [hcollected] at hquiet
  rw [classDecl_eq hkind, hcollected] at hclean
  obtain ⟨hsecond, hnames₂⟩ := adds_initialized m s₁
  obtain ⟨hall, hmethods⟩ := Grows.exists_before
    (fun c hc s => grows_method m s (h c hc)) (initialized m s₁)
  have hclean₂ := hall.clean hclean
  have hmembers : m = declaredMembers t.children := by
    have hsilent : Silent s (collected name s t.children).2 := by
      rw [hcollected]
      exact .of_clean hfirst.findings (hsecond.clean hclean₂)
    have heq := collected_eq h hsilent
    rwa [hcollected] at heq
  rw [hmembers] at hmethods hclean₂ hclean hnames₂
  have hnames₁ : s₁.names = [] := hfirst.names.trans hnames
  constructor
  case initializers =>
    intro c hc mods hfield declaration hdeclaration type hdeclared declarator hdeclarator init hinit
    obtain ⟨hinitializer, hconforms⟩ := mem_initializersOf hc (h c hc) hfield hdeclaration hdeclared
      hdeclarator hinit
    have hgrows : ∀ e ∈ (declaredMembers t.children).initializers, ∀ s,
        Grows s (initializer (declaredMembers t.children) s e.1 e.2) := by
      intro e _ s
      obtain ⟨hadds, hsame⟩ := adds_initializer (declaredMembers t.children) s e.1 e.2
      exact .of_adds hadds fun hs => hsame.trans hs
    obtain ⟨-, hparts⟩ := Grows.exists_before hgrows s₁
    obtain ⟨s', hbefore, hafter⟩ := hparts _ hinitializer
    exact sound_initializer hconforms (hbefore.closed hnames₁) (hafter.clean hclean₂)
  case bodies =>
    intro c hc methodName mods result hmethod body hbody
    obtain ⟨s', hbefore, hafter⟩ := hmethods c hc
    exact sound_method hmethod (h c hc) hbody
      (hbefore.closed (hnames₂.trans hnames₁)) (hafter.clean hclean)

end Class

end Check

open Check Typing in
/-- **Acceptance means well typed.** An expression is given the type `unknown` only if an error is
found in it, under any declarations and in any state of the check; an expression that has a type
by the rules has one of the language; and all classes of an accepted document are well typed. -/
theorem check_wellTyped {source : Text} {d : Document} (h : parse source = .ok d) :
    (∀ t ∈ d.tree.subtrees, ∀ level, Conforms (.expression level) t → ∀ (Γ : Context) (env : Env)
      (s : State), Γ.Suits env → s.types = Γ.types → (expression env s t).1 = .unknown →
      ∃ new, (expression env s t).2.findings = new ++ s.findings ∧
        ∃ f ∈ new, f.1.severity = .error) ∧
    (∀ (Γ : Context) t a, HasType Γ t a → a ∈ [Ty.int, .long, .double, .bool, .string, .void]) ∧
    (Diagnostics.accepted (check d) = true → ∀ t ∈ d.tree.subtrees, ∀ name ms,
      t.kind = .classDecl name ms → ClassTyped t.children) := by
  obtain ⟨-, -, -, -, -, hgrammatical, -⟩ := conforms_of_parse h
  refine ⟨?_, ?_, ?_⟩
  · intro t _ level ht Γ env s hΓ htypes hunknown
    obtain ⟨new, heq, -⟩ := (keeps_expression env s t).findings
    refine ⟨new, heq, ?_⟩
    by_contra hnone
    have hsilent : Silent s (expression env s t).2 :=
      ⟨new, heq, fun f hf herror => hnone ⟨f, hf, herror⟩⟩
    exact (typed_expression hΓ ht s htypes hsilent).1.ne_unknown hunknown
  · intro Γ t a ha
    have hknown := ha.ne_unknown
    cases a with
    | unknown => exact absurd rfl hknown
    | _ => decide
  · intro haccepted t ht name ms hkind
    have hclasses : ∀ v ∈ d.tree.subtrees, ∀ s, Grows s (classDecl s v) := by
      intro v hv s
      obtain ⟨sym, hconforms⟩ := hgrammatical.of_mem_subtrees hv
      exact (exists_class_checked hconforms s).1
    obtain ⟨s, hbefore, hafter⟩ := (Grows.exists_before hclasses .initial).2 t ht
    have hclean := clean_of_accepted haccepted
    obtain ⟨sym, hconforms⟩ := hgrammatical.of_mem_subtrees ht
    rcases hconforms.classes_have_members with ⟨_, _, -, hmembers⟩ | ⟨hother, -⟩
    · exact sound_class hkind hmembers (hbefore.closed rfl) (hafter.clean hclean)
    · exact absurd hkind (hother name ms)

open Check Typing in
/-- A class with a field, a method that calls itself, and values that widen.  Where its names are
not declared, the sum has no type and an error tells so. -/
theorem check_wellTyped_recursion :
    let undeclared : Env := ⟨[], [], [], .void, "F"⟩
    ∃ d, parse
      "class A { int f = 1; double F(int a) { double x = a; x += f; return F(a) + x; } }".toList
        = .ok d ∧ Diagnostics.accepted (check d) = true ∧
      (∃ t ∈ d.tree.subtrees, t.kind = .classDecl "A" [] ∧ ClassTyped t.children) ∧
      ∃ t ∈ d.tree.subtrees, t.kind = .binary .add ∧
        (expression undeclared .initial t).1 = .unknown ∧
        ∃ f ∈ (expression undeclared .initial t).2.findings, f.1.severity = .error := by
  intro undeclared
  have hread : (parse
      "class A { int f = 1; double F(int a) { double x = a; x += f; return F(a) + x; } }".toList
      ).toOption.any (fun d => Diagnostics.accepted (check d) &&
        d.tree.subtrees.any (fun t => t.kind == .classDecl "A" []) &&
        d.tree.subtrees.any fun t => t.kind == .binary .add &&
          (expression undeclared .initial t).1 == .unknown) = true := by
    decide +kernel
  obtain ⟨d, hd, hfacts⟩ := exists_document_of_any hread
  rw [Bool.and_eq_true, Bool.and_eq_true, List.any_eq_true, List.any_eq_true] at hfacts
  obtain ⟨⟨haccepted, t, ht, hkind⟩, u, hu, hsum⟩ := hfacts
  rw [Bool.and_eq_true, beq_iff_eq, beq_iff_eq] at hsum
  rw [beq_iff_eq] at hkind
  obtain ⟨huntyped, -, htyped⟩ := check_wellTyped hd
  obtain ⟨-, -, -, -, -, hgrammatical, -⟩ := conforms_of_parse hd
  obtain ⟨_, hconforms⟩ := hgrammatical.of_mem_subtrees hu
  obtain ⟨level, _, _, rfl, -⟩ := hconforms.exists_operands hsum.1
  have hsuits : (⟨[], [], [], .void, []⟩ : Context).Suits undeclared := by
    refine ⟨fun v => ?_, nofun, fun v => ?_, rfl⟩
    · simp [undeclared]
    · simp [undeclared]
  obtain ⟨new, hnew, f, hf, herror⟩ :=
    huntyped u hu level hconforms ⟨[], [], [], .void, []⟩ undeclared .initial hsuits rfl hsum.2
  refine ⟨d, hd, haccepted, ⟨t, ht, hkind, htyped haccepted t ht "A" [] hkind⟩, u, hu, hsum.1,
    hsum.2, f, ?_, herror⟩
  rw [hnew]
  exact List.mem_append_left _ hf

end SharpMutants
