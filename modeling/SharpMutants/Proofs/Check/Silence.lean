import SharpMutants.Proofs.Check.Typing
import SharpMutants.Proofs.Check.Tracking

/-!
# Silent operations of a check

A check is silent from one state to another if it finds no error in between (`Silent`).  An
operation of the check that stays silent leaves the state as it is, but for the marks on the
locals, and its result follows the typing rules: a name that is read or assigned is one of the
context (`Silent.read`, `Silent.write`), a value converts (`Silent.convert`), an operator
allows its operands (`Silent.binaryOperation`, `Silent.unaryOperation`), and a call resolves to
a method or to the console (`Silent.call`).
-/

namespace SharpMutants

namespace Typing

/-- A declared variable as a check knows it. -/
def typed (v : String × TypeName) : String × Ty := (v.1, Ty.ofName v.2)

/-- The parameters and the result of a method as a check knows them. -/
def Method.signature (m : Method) : Check.Signature :=
  ⟨m.parameters.map Ty.ofName, Ty.ofName m.result⟩

/-- The types of the locals of the open scopes as a check knows them. -/
def Context.types (Γ : Context) : List (List (String × Ty)) := Γ.locals.map (List.map typed)

/-- A check goes by the declarations of a context. -/
structure Context.Suits (Γ : Context) (env : Check.Env) : Prop where
  fields : ∀ v, v ∈ env.fields ↔ v ∈ Γ.fields.map typed
  methods : ∀ m ∈ env.methods, ∃ m' ∈ Γ.methods, m = (m'.name, m'.signature)
  parameters : ∀ v, v ∈ env.parameters ↔ v ∈ Γ.parameters.map typed
  result : env.result = Ty.ofName Γ.result

/-- Types that the check lets convert do so by the rules. -/
theorem converts_of_convertsTo {a b : Ty} (h : a.convertsTo b = true) (ha : a ≠ .unknown)
    (hb : b ≠ .unknown) : Converts a b := by
  by_cases hab : a = b
  · rw [hab]
    exact .refl b
  · rw [Ty.convertsTo.eq_def, Bool.or_eq_true, Bool.or_eq_true, Bool.or_eq_true, beq_iff_eq, beq_iff_eq,
      beq_iff_eq] at h
    rcases h with ((h | h) | h) | h
    · exact absurd h hab
    · exact absurd h ha
    · exact absurd h hb
    · split at h
      · exact .intLong
      · exact .intDouble
      · exact .longDouble
      · cases h

/-- The numeric types are the numbers. -/
theorem number_of_isNumeric {a : Ty} (h : a.isNumeric = true) : Number a := by
  cases a with
  | int => exact .int
  | long => exact .long
  | double => exact .double
  | _ => cases h

/-- Of two types of numbers one is the widest. -/
theorem widen_eq {a b : Ty} (ha : Number a) (hb : Number b) :
    (Ty.widen a b = a ∧ Converts b a) ∨ (Ty.widen a b = b ∧ Converts a b) := by
  cases ha with
  | int =>
      cases hb with
      | int => exact .inl ⟨rfl, .refl _⟩
      | long => exact .inr ⟨rfl, .intLong⟩
      | double => exact .inr ⟨rfl, .intDouble⟩
  | long =>
      cases hb with
      | int => exact .inl ⟨rfl, .intLong⟩
      | long => exact .inl ⟨rfl, .refl _⟩
      | double => exact .inr ⟨rfl, .longDouble⟩
  | double =>
      cases hb with
      | int => exact .inl ⟨rfl, .intDouble⟩
      | long => exact .inl ⟨rfl, .longDouble⟩
      | double => exact .inl ⟨rfl, .refl _⟩

/-- The wider of two numbers is the widest by the rules. -/
theorem widest_widen {a b : Ty} (ha : Number a) (hb : Number b) : Widest a b (Ty.widen a b) := by
  rcases widen_eq ha hb with ⟨heq, hconverts⟩ | ⟨heq, hconverts⟩
  · rw [heq]
    exact ⟨ha, .refl a, hconverts, fun _ _ h _ => h⟩
  · rw [heq]
    exact ⟨hb, hconverts, .refl b, fun _ _ _ h => h⟩

/-- A binary operation that has a result is one that the operator allows. -/
theorem allows_of_binary? {op : BinaryOp} {a b c : Ty} (h : Ty.binary? op a b = some c)
    (ha : a ≠ .unknown) (hb : b ≠ .unknown) : Allows op a b c := by
  have hnumbers : (a.isNumeric && b.isNumeric) = true → Number a ∧ Number b := by
    intro hboth
    rw [Bool.and_eq_true] at hboth
    exact ⟨number_of_isNumeric hboth.1, number_of_isNumeric hboth.2⟩
  have harithmetic : op ∈ [.add, .sub, .mul, .div, .rem] →
      (if (a.isNumeric && b.isNumeric) = true then some (Ty.widen a b) else none) = some c →
      Allows op a b c := by
    intro hop hresult
    split at hresult
    · rename_i hboth
      obtain rfl := Option.some.inj hresult
      obtain ⟨hleft, hright⟩ := hnumbers hboth
      exact .arithmetic hop hleft hright (widest_widen hleft hright)
    · cases hresult
  have horder : op ∈ [.lt, .le, .gt, .ge] →
      (if (a.isNumeric && b.isNumeric) = true then some Ty.bool else none) = some c →
      Allows op a b c := by
    intro hop hresult
    split at hresult
    · rename_i hboth
      obtain rfl := Option.some.inj hresult
      exact .order hop (hnumbers hboth).1 (hnumbers hboth).2
    · cases hresult
  have hequality : op ∈ [.eq, .ne] →
      (if (a.isNumeric && b.isNumeric || (a == b && a != .void)) = true then some Ty.bool
        else none) = some c → Allows op a b c := by
    intro hop hresult
    split at hresult
    · rename_i hboth
      obtain rfl := Option.some.inj hresult
      rw [Bool.or_eq_true, Bool.and_eq_true (a == b), beq_iff_eq, bne_iff_ne] at hboth
      rcases hboth with hboth | ⟨rfl, hvalue⟩
      · exact .sameNumber hop (hnumbers hboth).1 (hnumbers hboth).2
      · exact .sameValue hop hvalue
    · cases hresult
  have hlogical : op ∈ [.and, .or] →
      (if (a == .bool && b == .bool) = true then some Ty.bool else none) = some c →
      Allows op a b c := by
    intro hop hresult
    split at hresult
    · rename_i hboth
      obtain rfl := Option.some.inj hresult
      rw [Bool.and_eq_true, beq_iff_eq, beq_iff_eq] at hboth
      obtain ⟨rfl, rfl⟩ := hboth
      exact .logical hop
    · cases hresult
  rw [Ty.binary?.eq_def] at h
  dsimp only at h
  rw [if_neg (by simp [ha, hb])] at h
  cases op with
  | add =>
      dsimp only at h
      split at h
      · rename_i htext
        obtain rfl := Option.some.inj h
        rw [Bool.and_eq_true, Bool.and_eq_true, Bool.or_eq_true, beq_iff_eq, beq_iff_eq, bne_iff_ne,
          bne_iff_ne] at htext
        exact .concat htext.1.1 htext.1.2 htext.2
      · exact harithmetic (by decide) h
  | sub | mul | div | rem => exact harithmetic (by decide) h
  | lt | le | gt | ge => exact horder (by decide) h
  | eq | ne => exact hequality (by decide) h
  | and | or => exact hlogical (by decide) h

/-- What is added to a string is one. -/
theorem Allows.eq_string {b c : Ty} (h : Allows .add .string b c) : c = .string := by
  cases h with
  | concat => rfl
  | arithmetic _ left => cases left
  | order hop => exact absurd hop (by decide)
  | sameNumber hop => exact absurd hop (by decide)
  | sameValue hop => exact absurd hop (by decide)

/-- Nothing else converts to `bool`. -/
theorem Converts.eq_bool {a : Ty} (h : Converts a .bool) : a = .bool := by
  cases h
  rfl

/-- Only the name `void` names no value. -/
theorem ofName_eq_void {type : TypeName} : Ty.ofName type = .void ↔ type = .void := by
  cases type <;> decide

end Typing

namespace Check

open Typing

/-- The types of the locals of the open scopes. -/
def State.types (s : State) : List (List (String × Ty)) :=
  s.scopes.map fun scope => scope.locals.map fun l => (l.name, l.type)

/-- From one state to another no error is found. -/
def Silent (s s' : State) : Prop :=
  ∃ new, s'.findings = new ++ s.findings ∧ ∀ f ∈ new, f.1.severity ≠ .error

/-- Findings are added in front. -/
theorem Adds.suffix {s s' : State} (h : Adds s s') : s.findings <:+ s'.findings := by
  obtain ⟨new, heq, -⟩ := h
  exact ⟨new, heq.symm⟩

/-- A report that depends on a test adds in front. -/
theorem suffix_reportIf (s : State) (test : Bool) (finding : Finding) (site : Span) :
    s.findings <:+ (s.reportIf test finding site).findings := by
  rw [State.reportIf]
  split
  · exact List.suffix_cons _ _
  · exact List.suffix_refl _

namespace Silent

variable {s s' s'' : State} {finding : Finding} {site : Span}

/-- Silence is kept on each part of the way. -/
theorem split (h : s.findings <:+ s'.findings) (h' : s'.findings <:+ s''.findings)
    (hs : Silent s s'') : Silent s s' ∧ Silent s' s'' := by
  obtain ⟨first, hfirst⟩ := h
  obtain ⟨last, hlast⟩ := h'
  obtain ⟨new, hnew, hsilent⟩ := hs
  have heq : new = last ++ first := by
    rw [← hlast, ← hfirst, ← List.append_assoc, List.append_cancel_right_eq] at hnew
    exact hnew.symm
  rw [heq, List.forall_mem_append] at hsilent
  exact ⟨⟨first, hfirst.symm, hsilent.2⟩, ⟨last, hlast.symm, hsilent.1⟩⟩

/-- Whether a check is silent depends on its findings. -/
theorem congr_right (h : s'.findings = s''.findings) : Silent s s' ↔ Silent s s'' := by
  rw [Silent, Silent, h]

/-- Without an error later on, a check is silent. -/
theorem of_clean (h : Adds s s') (hclean : s'.Clean) : Silent s s' := by
  obtain ⟨new, heq, -⟩ := h
  refine ⟨new, heq, ?_⟩
  intro f hf
  apply hclean
  rw [heq]
  exact List.mem_append_left _ hf

/-- A report of an error is not silent. -/
theorem not_report (h : finding.severity = .error) : ¬Silent s (s.report finding site) := by
  intro hs
  obtain ⟨new, heq, hnew⟩ := hs
  have hone : [(finding, site)] = new := List.append_cancel_right heq
  exact hnew (finding, site) (hone ▸ List.mem_singleton_self _) h

/-- A silent report that depends on a test is none. -/
theorem reportIf {test : Bool} (h : finding.severity = .error)
    (hs : Silent s (s.reportIf test finding site)) :
    test = false ∧ s.reportIf test finding site = s := by
  cases test with
  | false => exact ⟨rfl, rfl⟩
  | true => exact absurd hs (not_report h)

/-- Silent checks of the entries of a list find nothing wrong with any of them. -/
theorem foldl_reportIf {α : Type} (test : α → Bool) (finding : α → Finding) (site : α → Span)
    (herror : ∀ a, (finding a).severity = .error) (as : List α)
    (hs : Silent s (as.foldl (fun s a => s.reportIf (test a) (finding a) (site a)) s)) :
    as.foldl (fun s a => s.reportIf (test a) (finding a) (site a)) s = s ∧
      ∀ a ∈ as, test a = false := by
  induction as with
  | nil => exact ⟨rfl, fun a ha => absurd ha List.not_mem_nil⟩
  | cons a as ih =>
      have hrest : ∀ s : State, s.findings <:+ (as.foldl
          (fun s a => s.reportIf (test a) (finding a) (site a)) s).findings :=
        fun s => foldl_steps (R := fun s s' : State => s.findings <:+ s'.findings)
          (fun s => List.suffix_refl _) List.IsSuffix.trans
          (fun s a => suffix_reportIf s _ _ _) s as
      rw [List.foldl_cons] at hs ⊢
      obtain ⟨hhere, -⟩ := hs.split (suffix_reportIf s _ _ _) (hrest _)
      obtain ⟨htest, hsame⟩ := hhere.reportIf (herror a)
      rw [hsame] at hs ⊢
      obtain ⟨hall, htests⟩ := ih hs
      exact ⟨hall, List.forall_mem_cons.mpr ⟨htest, htests⟩⟩

/-- **A silent conversion** is one by the rules. -/
theorem convert {given wanted : Ty} (hs : Silent s (s.convert given wanted site))
    (hgiven : given ≠ .unknown) (hwanted : wanted ≠ .unknown) :
    s.convert given wanted site = s ∧ Converts given wanted := by
  rw [State.convert] at hs ⊢
  split at hs
  · exact absurd hs (not_report rfl)
  · rename_i hnarrow
    rw [if_neg hnarrow]
    obtain ⟨hfits, hsame⟩ := hs.reportIf rfl
    rw [Bool.not_eq_false'] at hfits
    exact ⟨hsame, converts_of_convertsTo hfits hgiven hwanted⟩

end Silent

/-! ## Names -/

/-- A name has no type in a list just if it does not stand there. -/
theorem typeIn?_eq_none {entries : List (String × Ty)} {name : String} :
    typeIn? entries name = none ↔ name ∉ entries.map Prod.fst := by
  rw [typeIn?, Option.map_eq_none_iff, List.find?_eq_none, List.mem_map]
  simp only [beq_iff_eq, not_exists, not_and]

/-- A name stands in a list with the type it has there. -/
theorem mem_of_typeIn? {entries : List (String × Ty)} {name : String} {ty : Ty}
    (h : typeIn? entries name = some ty) : (name, ty) ∈ entries := by
  rw [typeIn?, Option.map_eq_some_iff] at h
  obtain ⟨e, he, rfl⟩ := h
  have hname : (e.1 == name) = true := List.find?_some (p := fun e : String × Ty => e.1 == name) he
  rw [beq_iff_eq] at hname
  rw [← hname]
  exact List.mem_of_find?_eq_some he

/-- Looking a name up goes through to the types. -/
theorem lookup_map_typed (vs : List (String × TypeName)) (name : String) :
    (vs.map typed).lookup name = (vs.lookup name).map Ty.ofName := by
  induction vs with
  | nil => rfl
  | cons v vs ih =>
      rw [List.map_cons, typed, List.lookup_cons, List.lookup_cons, ih]
      split <;> rfl

/-- The marks on a local do not change its type. -/
theorem updateLocal?_types {change : Local → Local} (hname : ∀ l, (change l).name = l.name)
    (htype : ∀ l, (change l).type = l.type) {name : String} {ty : Ty} {ls ls' : List Local}
    (h : Scope.updateLocal? change name ls = some (ty, ls')) :
    (ls'.map fun l => (l.name, l.type)) = ls.map (fun l => (l.name, l.type)) ∧
      (ls.map fun l => (l.name, l.type)).lookup name = some ty := by
  induction ls generalizing ls' with
  | nil => cases h
  | cons l ls ih =>
      rw [Scope.updateLocal?] at h
      rw [List.map_cons, List.lookup_cons]
      split at h
      · rename_i hhere
        cases h
        rw [List.map_cons, hname, htype, BEq.comm, hhere]
        exact ⟨rfl, rfl⟩
      · rename_i hhere
        rw [Option.map_eq_some_iff] at h
        obtain ⟨⟨_, rest⟩, hrest, heq⟩ := h
        cases heq
        obtain ⟨hsame, hfound⟩ := ih hrest
        rw [Bool.not_eq_true, BEq.comm] at hhere
        rw [List.map_cons, hsame, hhere]
        exact ⟨rfl, hfound⟩

/-- Changing a local but for its name and type leaves the types as they are. -/
theorem update?_types {change : Local → Local} (hname : ∀ l, (change l).name = l.name)
    (htype : ∀ l, (change l).type = l.type) {name : String} {ty : Ty} {ss ss' : List Scope}
    (h : Scope.update? change name ss = some (ty, ss')) :
    (ss'.map fun s => s.locals.map fun l => (l.name, l.type)) =
        ss.map (fun s => s.locals.map fun l => (l.name, l.type)) ∧
      (ss.map fun s => s.locals.map fun l => (l.name, l.type)).flatten.lookup name = some ty := by
  induction ss generalizing ss' with
  | nil => cases h
  | cons s ss ih =>
      rw [Scope.update?] at h
      rw [List.map_cons, List.flatten_cons, List.lookup_append]
      split at h
      · rename_i hlocal
        cases h
        obtain ⟨hsame, hfound⟩ := updateLocal?_types hname htype hlocal
        rw [List.map_cons, hsame, hfound]
        exact ⟨rfl, rfl⟩
      · rename_i hlocal
        rw [Option.map_eq_some_iff] at h
        obtain ⟨⟨_, rest⟩, hrest, heq⟩ := h
        cases heq
        obtain ⟨hsame, hfound⟩ := ih hrest
        rw [Scope.updateLocal?_eq_none] at hlocal
        rw [List.map_cons, hsame, Execution.lookup_eq_none.mpr (by rwa [List.map_map])]
        exact ⟨rfl, hfound⟩

/-- A name of no local has no type among the locals. -/
theorem lookup_types_eq_none {change : Local → Local} {name : String} {s : State}
    (h : Scope.update? change name s.scopes = none) : s.types.flatten.lookup name = none := by
  rw [Execution.lookup_eq_none, List.mem_map]
  intro hname
  obtain ⟨e, he, rfl⟩ := hname
  obtain ⟨es, hes, he⟩ := List.mem_flatten.mp he
  obtain ⟨scope, hscope, rfl⟩ := List.mem_map.mp hes
  obtain ⟨l, hl, rfl⟩ := List.mem_map.mp he
  exact Scope.update?_eq_none.mp h _ (List.mem_map_of_mem hscope) (List.mem_map_of_mem hl)

/-- What a name stands for in silence. -/
def Means (Γ : Context) (name : String) (ty : Ty) : Prop :=
  ∃ type, ty = Ty.ofName type ∧ Γ.Resolves name type

namespace Silent

variable {Γ : Context} {env : Env} {s : State} {name : String} {site : Span}

/-- A name that is silently read, and is no local, means a field or a parameter. -/
theorem nonLocal (hΓ : Γ.Suits env) (hnowhere : name ∉ Γ.locals.flatten.map Prod.fst)
    (hs : Silent s (s.nonLocal env name site).2) :
    (s.nonLocal env name site).2 = s ∧ Means Γ name (s.nonLocal env name site).1 := by
  have hmember : ∀ {vs : List (String × TypeName)} {ty : Ty}, (name, ty) ∈ vs.map typed →
      ∃ type, ty = Ty.ofName type ∧ (name, type) ∈ vs := by
    intro vs ty h
    obtain ⟨v, hv, heq⟩ := List.mem_map.mp h
    obtain ⟨rfl, rfl⟩ := Prod.mk.inj heq
    exact ⟨v.2, rfl, hv⟩
  rw [State.nonLocal] at hs ⊢
  split at hs
  · rename_i ty hparameter
    obtain ⟨type, rfl, hfound⟩ := hmember ((hΓ.parameters _).mp (mem_of_typeIn? hparameter))
    exact ⟨rfl, type, rfl, .asParameter hnowhere hfound⟩
  · rename_i hparameter
    split at hs
    · rename_i ty hfield
      obtain ⟨type, rfl, hfound⟩ := hmember ((hΓ.fields _).mp (mem_of_typeIn? hfield))
      refine ⟨rfl, type, rfl, .asField hnowhere ?_ hfound⟩
      intro hname
      obtain ⟨v, hv, rfl⟩ := List.mem_map.mp hname
      rw [typeIn?_eq_none] at hparameter
      apply hparameter
      exact List.mem_map.mpr ⟨typed v, (hΓ.parameters _).mpr (List.mem_map_of_mem hv), rfl⟩
    · exact absurd hs (not_report rfl)

/-- Looking up a local goes through to the types. -/
theorem lookup_types (Γ : Context) (name : String) :
    Γ.types.flatten.lookup name = (Γ.locals.flatten.lookup name).map Ty.ofName := by
  rw [Context.types, ← List.map_flatten, lookup_map_typed]

/-- A local that is found and marked is one of the context, and the types stay as they are. -/
theorem found (htypes : s.types = Γ.types) {change : Local → Local}
    (hname : ∀ l, (change l).name = l.name) (htype : ∀ l, (change l).type = l.type) {ty : Ty}
    {ss : List Scope} (h : Scope.update? change name s.scopes = some (ty, ss)) :
    (∀ s' : State, s'.scopes = ss → s'.types = s.types) ∧ Means Γ name ty := by
  obtain ⟨hsame, hlookup⟩ := update?_types hname htype h
  constructor
  · intro s' hs'
    rw [State.types, hs', hsame, State.types]
  · rw [State.types] at htypes
    rw [htypes, lookup_types, Option.map_eq_some_iff] at hlookup
    obtain ⟨type, hfound, rfl⟩ := hlookup
    exact ⟨type, rfl, .asLocal hfound⟩

/-- A name that is not found among the locals is not declared there. -/
theorem nowhere (htypes : s.types = Γ.types) {change : Local → Local}
    (h : Scope.update? change name s.scopes = none) :
    name ∉ Γ.locals.flatten.map Prod.fst := by
  rw [← Execution.lookup_eq_none, ← Option.map_eq_none_iff (f := Ty.ofName), ← lookup_types,
    ← htypes]
  exact lookup_types_eq_none h

/-- **A name that is silently read** means what the rules say. -/
theorem read (hΓ : Γ.Suits env) (htypes : s.types = Γ.types)
    (hs : Silent s (s.read env name site).2) :
    (s.read env name site).2.types = s.types ∧ Means Γ name (s.read env name site).1 := by
  rw [State.read] at hs ⊢
  split at hs
  · rename_i ty scopes hfound
    obtain ⟨hsame, hmeans⟩ := found htypes (by intro l; rfl) (by intro l; rfl) hfound
    refine ⟨hsame _ ?_, hmeans⟩
    dsimp only
    rw [State.reportIf]
    split <;> rfl
  · rename_i hnone
    obtain ⟨heq, hmeans⟩ := nonLocal hΓ (nowhere htypes hnone) hs
    exact ⟨by rw [heq], hmeans⟩

/-- **A name that is silently written** means what the rules say. -/
theorem write (hΓ : Γ.Suits env) (htypes : s.types = Γ.types)
    (hs : Silent s (s.write env name site).2) :
    (s.write env name site).2.types = s.types ∧ Means Γ name (s.write env name site).1 := by
  rw [State.write] at hs ⊢
  split at hs
  · rename_i ty scopes hfound
    obtain ⟨hsame, hmeans⟩ := found htypes (by intro l; rfl) (by intro l; rfl) hfound
    exact ⟨hsame _ rfl, hmeans⟩
  · rename_i hnone
    obtain ⟨heq, hmeans⟩ := nonLocal hΓ (nowhere htypes hnone) hs
    exact ⟨by rw [heq], hmeans⟩

end Silent

/-- What a name means besides the locals is the same in every state. -/
theorem nonLocal_congr {env : Env} {s s' : State} {name : String} {site site' : Span} :
    (s.nonLocal env name site).1 = (s'.nonLocal env name site').1 := by
  rw [State.nonLocal, State.nonLocal]
  split
  · rfl
  · split <;> rfl

/-- A name that is read and assigned has the same type each time. -/
theorem read_eq_write {env : Env} {s s' : State} {name : String} {site site' : Span}
    (h : s.types = s'.types) : (s.read env name site).1 = (s'.write env name site').1 := by
  have hread : (s.read env name site).1 =
      (s.types.flatten.lookup name).getD (s.nonLocal env name site).1 := by
    rw [State.read]
    split
    · rename_i hfound
      rw [State.types, (update?_types (by intro l; rfl) (by intro l; rfl) hfound).2]
      rfl
    · rename_i hnone
      rw [lookup_types_eq_none hnone]
      rfl
  have hwrite : (s'.write env name site').1 =
      (s'.types.flatten.lookup name).getD (s'.nonLocal env name site').1 := by
    rw [State.write]
    split
    · rename_i hfound
      rw [State.types, (update?_types (by intro l; rfl) (by intro l; rfl) hfound).2]
      rfl
    · rename_i hnone
      rw [lookup_types_eq_none hnone]
      rfl
  rw [hread, hwrite, h, nonLocal_congr]

/-! ## Operations -/

namespace Silent

variable {Γ : Context} {env : Env} {s : State} {site : Span}

/-- **A silent binary operation** is one that the operator allows. -/
theorem binaryOperation {op : BinaryOp} {a b : Ty} {right : Tree}
    (hs : Silent s (Check.binaryOperation s op a b site right).2) (ha : a ≠ .unknown)
    (hb : b ≠ .unknown) : (Check.binaryOperation s op a b site right).2 = s ∧
      Allows op a b (Check.binaryOperation s op a b site right).1 := by
  rw [Check.binaryOperation] at hs ⊢
  split at hs
  · exact absurd hs (not_report rfl)
  · rename_i hresult
    exact ⟨(hs.reportIf rfl).2, allows_of_binary? hresult ha hb⟩

/-- **A silent unary operation** is one that the operator allows. -/
theorem unaryOperation {op : UnaryOp} {a : Ty}
    (hs : Silent s (Check.unaryOperation s op a site).2) (ha : a ≠ .unknown) :
    Check.unaryOperation s op a site = (a, s) ∧ if op = .not then a = .bool else Number a := by
  obtain ⟨fits, hfits⟩ : ∃ fits, fits = if op == .not then a == .bool else a.isNumeric := ⟨_, rfl⟩
  have hunfold : Check.unaryOperation s op a site =
      if fits || a == .unknown then (a, s) else (.unknown, s.report (.unaryOperand op a) site) := by
    rw [hfits]
    rfl
  rw [hunfold] at hs ⊢
  split at hs
  · rename_i htest
    refine ⟨if_pos htest, ?_⟩
    rw [Bool.or_eq_true, beq_iff_eq, or_iff_left ha, hfits] at htest
    by_cases hnot : op = .not
    · rw [if_pos hnot]
      rwa [if_pos (beq_iff_eq.mpr hnot), beq_iff_eq] at htest
    · rw [if_neg hnot]
      rw [if_neg (by rwa [beq_iff_eq])] at htest
      exact number_of_isNumeric htest
  · exact absurd hs (not_report rfl)

end Silent

/-- A dotted name is what stands before its last point, the point, and what stands behind. -/
theorem splitLast?_eq {name receiver member : Text}
    (h : splitLast? name = some (receiver, member)) : name = receiver ++ '.' :: member := by
  rw [splitLast?] at h
  split at h
  · rename_i hshort
    have hcut := List.takeWhile_append_dropWhile (p := (· != '.')) (l := name.reverse)
    cases hrest : name.reverse.dropWhile (· != '.') with
    | nil =>
        rw [hrest, List.append_nil] at hcut
        rw [hcut, List.reverse_reverse] at hshort
        exact absurd hshort (Nat.lt_irrefl _)
    | cons c rest =>
        obtain rfl : c = '.' := by
          have hhead := List.head_dropWhile_not (· != '.') (l := name.reverse) (by simp [hrest])
          simpa [hrest] using hhead
        obtain ⟨hreceiver, hmember⟩ := Prod.mk.inj (Option.some.inj h)
        have hname : name = rest.reverse ++ '.' :: member := by
          rw [← hmember, List.append_cons, ← List.reverse_cons, ← List.reverse_append, ← hrest, hcut,
            List.reverse_reverse]
        have hcount : name.length - member.length - 1 = rest.reverse.length := by
          rw [hname, List.length_append, List.length_cons]
          omega
        rw [hmember, hcount] at hreceiver
        rw [← hreceiver]
        conv_rhs => rw [hname, List.take_left]
        exact hname
  · cases h

namespace Silent

variable {Γ : Context} {env : Env} {s : State} {site : Span}

/-- What holds of each entry with its place holds of each entry. -/
theorem forall_of_zipIdx {α : Type} {P : α → Prop} {as : List α}
    (h : ∀ e ∈ as.zipIdx, P e.1) : ∀ a ∈ as, P a := by
  rw [← List.zipIdx_map_fst 0 as, List.forall_mem_map]
  exact h

/-- Arguments of a call that writes to the console. -/
theorem voidArguments {args : List (Span × Ty)}
    (hs : Silent s (args.zipIdx.foldl
      (fun s a => s.reportIf (a.1.2 == .void) (.voidArgument (a.2 + 1)) a.1.1) s)) :
    args.zipIdx.foldl
      (fun s a => s.reportIf (a.1.2 == .void) (.voidArgument (a.2 + 1)) a.1.1) s = s ∧
      .void ∉ args.map Prod.snd := by
  obtain ⟨heq, hvalues⟩ := foldl_reportIf (fun a : (Span × Ty) × Nat => a.1.2 == .void)
    (fun a => .voidArgument (a.2 + 1)) (fun a => a.1.1) (fun _ => rfl) _ hs
  refine ⟨heq, ?_⟩
  intro hvoid
  obtain ⟨a, ha, hvoid⟩ := List.mem_map.mp hvoid
  have hvalue := forall_of_zipIdx (P := fun a => (a.2 == .void) = false) hvalues a ha
  rw [beq_eq_false_iff_ne] at hvalue
  exact hvalue hvoid

/-- A silent call of the console is one by the rules. -/
theorem consoleCall {callee member : String} {args : List (Span × Ty)}
    (hcallee : callee = "Console." ++ member)
    (hs : Silent s (Check.consoleCall s member site args).2) :
    (Check.consoleCall s member site args).2 = s ∧
      Γ.Calls callee (args.map Prod.snd) (Check.consoleCall s member site args).1 := by
  rw [Check.consoleCall] at hs ⊢
  dsimp only at hs ⊢
  split at hs
  · rename_i hmember
    rw [if_pos hmember]
    rw [beq_iff_eq] at hmember
    split at hs
    · exact absurd hs (not_report rfl)
    · rename_i hcount
      rw [if_neg hcount]
      obtain ⟨heq, hvalues⟩ := voidArguments hs
      refine ⟨heq, .writeLine (by rw [hcallee, hmember]; rfl) ?_ hvalues⟩
      rw [List.length_map]
      simpa using hcount
  · rename_i hother
    rw [if_neg hother]
    split at hs
    · rename_i hmember
      rw [if_pos hmember]
      rw [beq_iff_eq] at hmember
      split at hs
      · exact absurd hs (not_report rfl)
      · rename_i hcount
        rw [if_neg hcount]
        obtain ⟨heq, hvalues⟩ := voidArguments hs
        refine ⟨heq, .write (by rw [hcallee, hmember]; rfl) ?_ hvalues⟩
        rw [List.length_map]
        simpa using hcount
    · exact absurd hs (not_report rfl)

/-- A method accepts arguments that convert to its parameters. -/
theorem accepts_iff {m : Signature} {args : List (Span × Ty)} :
    accepts m args = true ↔ ∀ e ∈ m.parameters.zip args, e.2.2.convertsTo e.1 = true := by
  rw [accepts, List.all_eq_true]

/-- Arguments that a method accepts convert by the rules. -/
theorem converts_of_accepts {m : Method} {args : List (Span × Ty)}
    (hcount : m.signature.parameters.length = args.length)
    (h : accepts m.signature args = true) (hargs : ∀ a ∈ args, a.2 ≠ .unknown) :
    List.Forall₂ Converts (args.map Prod.snd) (m.parameters.map Ty.ofName) := by
  rw [List.forall₂_map_left_iff]
  apply List.Forall₂.flip
  rw [List.forall₂_iff_zip]
  refine ⟨hcount, ?_⟩
  intro p a hmem
  obtain ⟨hp, ha⟩ := List.of_mem_zip hmem
  obtain ⟨type, -, rfl⟩ := List.mem_map.mp hp
  exact converts_of_convertsTo (accepts_iff.mp h _ hmem) (hargs a ha) (ofName_ne_unknown type)

/-- A silent call of a method is one by the rules. -/
theorem methodCall (hΓ : Γ.Suits env) {callee : String} {args : List (Span × Ty)}
    (hs : Silent s (Check.methodCall env s callee site args).2)
    (hargs : ∀ a ∈ args, a.2 ≠ .unknown) :
    (Check.methodCall env s callee site args).2 = s ∧
      Γ.Calls callee (args.map Prod.snd) (Check.methodCall env s callee site args).1 := by
  rw [Check.methodCall] at hs ⊢
  dsimp only at hs ⊢
  split at hs
  · exact absurd hs (not_report rfl)
  · rename_i hsome
    rw [if_neg hsome]
    split at hs
    · exact absurd hs (not_report rfl)
    · rename_i first others hfitting
      have hmember : ∀ m ∈ first :: others,
          (callee, m) ∈ env.methods ∧ m.parameters.length = args.length := by
        intro m hm
        rw [← hfitting, List.mem_filter, beq_iff_eq] at hm
        obtain ⟨⟨e, he, rfl⟩, hcount⟩ := hm.imp_left List.mem_map.mp
        rw [List.mem_filter, beq_iff_eq] at he
        obtain ⟨he, rfl⟩ := he
        exact ⟨he, hcount⟩
      split at hs
      · rename_i m hm
        obtain ⟨hfound, hcount⟩ := hmember m (List.mem_of_find?_eq_some hm)
        obtain ⟨m', hm', heq⟩ := hΓ.methods _ hfound
        obtain ⟨rfl, rfl⟩ := Prod.mk.inj heq
        have haccepts : accepts m'.signature args = true :=
          List.find?_some (p := fun m => accepts m args) hm
        exact ⟨rfl, .method hm' rfl (converts_of_accepts hcount haccepts hargs)⟩
      · rename_i hnone
        obtain ⟨-, hfits⟩ := foldl_reportIf
          (fun a : (Ty × Span × Ty) × Nat => !a.1.2.2.convertsTo a.1.1)
          (fun a => .argument (a.2 + 1) a.1.2.2 a.1.1) (fun a => a.1.2.1) (fun _ => rfl) _ hs
        have haccepts : accepts first args = true := by
          rw [accepts_iff]
          intro e he
          have hfit := forall_of_zipIdx (P := fun e : Ty × Span × Ty =>
            (!e.2.2.convertsTo e.1) = false) hfits e he
          rwa [Bool.not_eq_false'] at hfit
        exact absurd haccepts (List.find?_eq_none.mp hnone first List.mem_cons_self)

/-- **A silent call** is one by the rules. -/
theorem call (hΓ : Γ.Suits env) {callee : String} {args : List (Span × Ty)}
    (hs : Silent s (Check.call env s callee site args).2) (hargs : ∀ a ∈ args, a.2 ≠ .unknown) :
    (Check.call env s callee site args).2 = s ∧
      Γ.Calls callee (args.map Prod.snd) (Check.call env s callee site args).1 := by
  rw [Check.call] at hs ⊢
  split at hs
  · exact methodCall hΓ hs hargs
  · rename_i receiver member hsplit
    split at hs
    · rename_i hreceiver
      rw [if_pos hreceiver]
      rw [beq_iff_eq] at hreceiver
      refine consoleCall ?_ hs
      rw [← String.toList_inj, splitLast?_eq hsplit, hreceiver]
      simp
    · exact absurd hs (not_report rfl)

end Silent

end Check
end SharpMutants
