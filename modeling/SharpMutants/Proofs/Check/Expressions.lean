import SharpMutants.Proofs.Check.Silence

/-!
# A silent check types expressions

An expression that is checked in silence has the type that the check gives it, and the types
of the locals stay as they are (`Typed`): a silent check is silent on every part of the
expression, so each part is typed, and the operation that puts the parts together follows its
rule.  Main statement: `typed_expression`.  As no expression has the type `unknown` by the
rules, that type is never given in silence.
-/

namespace SharpMutants.Check

open Typing

section Expressions

variable {Γ : Context} {env : Env} {s : State} {d : Node} {t operand target value : Tree}
  {cs : List Tree} {name : String}

/-- An expression is typed by every silent check that goes by a context. -/
def Typed (Γ : Context) (env : Env) (t : Tree) : Prop :=
  ∀ s : State, s.types = Γ.types → Silent s (expression env s t).2 →
    HasType Γ t (expression env s t).1 ∧ (expression env s t).2.types = s.types

/-- Typing an expression only adds findings. -/
theorem suffix_expression (env : Env) (s : State) (t : Tree) :
    s.findings <:+ (expression env s t).2.findings :=
  (keeps_expression env s t).findings.suffix

/-- A row for one symbol is one tree. -/
theorem exists_eq_singleton {R : Symbol → Tree → Prop} {symbol : Symbol}
    (h : List.Forall₂ R [symbol] cs) : ∃ c, cs = [c] ∧ R symbol c := by
  obtain ⟨c, _, hc, hnil, rfl⟩ := List.forall₂_cons_left_iff.mp h
  exact ⟨c, by rw [List.forall₂_nil_left_iff.mp hnil], hc⟩

/-- A row for two symbols is two trees. -/
theorem exists_eq_pair {R : Symbol → Tree → Prop} {first second : Symbol}
    (h : List.Forall₂ R [first, second] cs) : ∃ c c', cs = [c, c'] ∧ R first c ∧ R second c' := by
  obtain ⟨c, _, hc, hrest, rfl⟩ := List.forall₂_cons_left_iff.mp h
  obtain ⟨c', rfl, hc'⟩ := exists_eq_singleton hrest
  exact ⟨c, c', rfl, hc, hc'⟩

/-- What conforms as an expression and is a literal or a name has no children. -/
theorem children_eq_nil {level : Nat} (h : Conforms (.expression level) (.node d cs))
    (hkind : (∃ v, d.kind = .literal v) ∨ ∃ name, d.kind = .identifier name) : cs = [] := by
  cases h with
  | @node _ _ ss _ rule _ children =>
      obtain ⟨v, hv⟩ | ⟨name, hname⟩ := hkind
      · rw [hv] at rule
        cases rule
        cases children
        rfl
      · rw [hname] at rule
        cases rule
        cases children
        rfl

/-- An expression that is a name, in parentheses or not, has the type of the name. -/
theorem hasType_of_nameOf? {level : Nat} (h : Conforms (.expression level) t)
    (hname : Variables.nameOf? t = some name) {ty : Ty} (hmeans : Means Γ name ty) :
    HasType Γ t ty := by
  induction t using Tree.inductionOn generalizing level with
  | node d cs ih =>
      rw [nameOf?_eq_some_iff] at hname
      by_cases hparenthesized : d.kind = .parenthesized
      · cases h with
        | @node _ _ ss _ rule _ children =>
            rw [hparenthesized] at rule
            cases rule
            obtain ⟨inner, rfl, hinner⟩ := exists_eq_singleton children
            rw [unparenthesize_parenthesized hparenthesized, ← nameOf?_eq_some_iff] at hname
            exact .parenthesized hparenthesized (ih inner List.mem_cons_self hinner hname)
      · rw [unparenthesize_other fun _ _ hkind _ => hparenthesized hkind] at hname
        obtain rfl := children_eq_nil h (.inr ⟨name, hname⟩)
        obtain ⟨type, rfl, hresolves⟩ := hmeans
        exact .identifier hname hresolves

/-- A literal that has a value is spelled in digits and fits into 64 bits. -/
theorem integerValue?_eq_some {text : String} {n : Nat} (h : integerValue? text = some n) :
    Decimal.natural? text.toList = some n ∧ n < 18446744073709551616 := by
  rw [integerValue?, Option.filter_eq_some_iff] at h
  exact ⟨h.1, of_decide_eq_true h.2⟩

/-- Literals have the types that the rules give them. -/
theorem typed_literal {v : Literal} (hkind : d.kind = .literal v) : Typed Γ env (.node d []) := by
  intro s htypes hs
  rw [expression.eq_def] at hs ⊢
  simp only [hkind] at hs ⊢
  split at hs
  · rename_i hint
    rw [integerLiteral] at hs ⊢
    split at hs
    · rename_i n hn
      obtain ⟨hnumber, hbound⟩ := integerValue?_eq_some hn
      dsimp only
      split
      · rename_i hsmall
        exact ⟨.int hkind hint hnumber hsmall, rfl⟩
      · rename_i hlarge
        exact ⟨.long hkind hint hnumber (Nat.le_of_not_lt hlarge) hbound, rfl⟩
    · exact absurd hs (Silent.not_report rfl)
  · exact ⟨.double hkind ‹_›, rfl⟩
  · exact ⟨.bool hkind ‹_›, rfl⟩
  · exact ⟨.string hkind ‹_›, rfl⟩

/-- Identifiers have the types that the rules give them. -/
theorem typed_identifier (hΓ : Γ.Suits env) (hkind : d.kind = .identifier name) :
    Typed Γ env (.node d []) := by
  intro s htypes hs
  rw [expression_identifier hkind] at hs ⊢
  obtain ⟨hsame, type, htype, hresolves⟩ := hs.read hΓ htypes
  rw [htype]
  exact ⟨.identifier hkind hresolves, hsame⟩

/-- A binary expression is typed if its operands are. -/
theorem typed_binary {op : BinaryOp} {l r : Tree} (hkind : d.kind = .binary op)
    (hl : Typed Γ env l) (hr : Typed Γ env r) : Typed Γ env (.node d [l, r]) := by
  intro s htypes hs
  rw [expression_binary hkind] at hs ⊢
  dsimp only at hs ⊢
  obtain ⟨joined, hjoined⟩ : ∃ joined, joined = if op == .and || op == .or then
      { (expression env (expression env s l).2 r).2 with flow := (expression env s l).2.flow }
    else (expression env (expression env s l).2 r).2 := ⟨_, rfl⟩
  have hfindings : joined.findings = (expression env (expression env s l).2 r).2.findings := by
    rw [hjoined]
    split <;> rfl
  have hsame : joined.types = (expression env (expression env s l).2 r).2.types := by
    rw [hjoined]
    split <;> rfl
  rw [← hjoined] at hs ⊢
  have hjoin : s.findings <:+ joined.findings := by
    rw [hfindings]
    exact (suffix_expression env s l).trans (suffix_expression env _ r)
  obtain ⟨hoperands, hoperation⟩ := hs.split hjoin
    (Quiet.binaryOperation joined op _ _ _ r).findings.suffix
  rw [Silent.congr_right hfindings] at hoperands
  obtain ⟨hleft, hright⟩ :=
    hoperands.split (suffix_expression env s l) (suffix_expression env _ r)
  obtain ⟨hla, hlt⟩ := hl s htypes hleft
  obtain ⟨hra, hrt⟩ := hr _ (hlt.trans htypes) hright
  obtain ⟨hstate, hallowed⟩ := hoperation.binaryOperation hla.ne_unknown hra.ne_unknown
  exact ⟨.binary hkind hla hra hallowed, by rw [hstate, hsame, hrt, hlt]⟩

/-- The operators that step are `++` and `--`. -/
theorem isStep_iff {op : UnaryOp} : op.isStep = true ↔ op ∈ [.increment, .decrement] := by
  cases op <;> decide

section Unary

variable {op : UnaryOp} {level : Nat}

/-- A step up or down has the type of its variable. -/
theorem typed_step (hΓ : Γ.Suits env) (hkind : d.kind = .prefixUnary op ∨ d.kind = .postfixUnary op)
    (hop : op.isStep = true) (hname : Variables.nameOf? operand = some name)
    (h : Conforms (.expression level) operand) : Typed Γ env (.node d [operand]) := by
  intro s htypes hs
  rw [expression_step hkind hop hname, stepVariable] at hs ⊢
  dsimp only at hs ⊢
  have hread := (Quiet.read env s name (unparenthesize operand).span).findings.suffix
  have hwrite := (Keeps.write env (s.read env name (unparenthesize operand).span).2 name
    (unparenthesize operand).span).findings.suffix
  split at hs
  · rename_i hnumber
    obtain ⟨-, hreport⟩ := hs.split (hread.trans hwrite) (List.suffix_cons _ _)
    exact absurd hreport (Silent.not_report rfl)
  · rename_i hnumber
    rw [if_neg hnumber]
    obtain ⟨hsilent, hsilent'⟩ := hs.split hread hwrite
    obtain ⟨hsame, hmeans⟩ := hsilent.read hΓ htypes
    obtain ⟨hsame', -⟩ := hsilent'.write hΓ (hsame.trans htypes)
    have htyped := hasType_of_nameOf? h hname hmeans
    refine ⟨.step hkind (isStep_iff.mp hop) hname htyped (number_of_isNumeric ?_),
      hsame'.trans hsame⟩
    rw [Bool.and_eq_true, bne_iff_ne, and_iff_left htyped.ne_unknown, Bool.not_eq_true',
      Bool.not_eq_false] at hnumber
    exact hnumber

/-- What is no variable is not stepped in silence. -/
theorem typed_stepped (hΓ : Γ.Suits env)
    (hkind : d.kind = .prefixUnary op ∨ d.kind = .postfixUnary op) (hop : op.isStep = true)
    (h : Conforms (.expression level) operand) : Typed Γ env (.node d [operand]) := by
  cases hname : Variables.nameOf? operand with
  | some name => exact typed_step hΓ hkind hop hname h
  | none =>
      intro s htypes hs
      have hplain : (op == .negate) = false := by
        cases op with
        | negate => cases hop
        | _ => rfl
      rw [expression_unary hkind (.inr hname), hplain, Bool.false_and, if_neg Bool.false_ne_true,
        if_pos hop] at hs
      obtain ⟨-, hreport⟩ := hs.split (suffix_expression env s operand) (List.suffix_cons _ _)
      exact absurd hreport (Silent.not_report rfl)

/-- The least integer is an `int`, though its magnitude is none. -/
theorem typed_least (hkind : d.kind = .prefixUnary .negate)
    (hleast : isMinimumMagnitude operand = true) (h : Conforms (.expression level) operand) :
    HasType Γ (.node d [operand]) .int := by
  obtain ⟨e, cs⟩ := operand
  rw [isMinimumMagnitude] at hleast
  split at hleast
  · rename_i v hv
    rw [Bool.and_eq_true, beq_iff_eq, beq_iff_eq] at hleast
    obtain ⟨hint, hvalue⟩ := hleast
    obtain ⟨hnumber, -⟩ := integerValue?_eq_some hvalue
    obtain rfl := children_eq_nil h (.inl ⟨v, hv⟩)
    exact .least hkind hv hnumber (.long hv hint hnumber (by decide) (by decide))
  · cases hleast

/-- A unary expression that is no step is typed if its operand is. -/
theorem typed_unary (hkind : d.kind = .prefixUnary op) (hop : op.isStep = false)
    (h : Conforms (.expression level) operand) (ht : Typed Γ env operand) :
    Typed Γ env (.node d [operand]) := by
  intro s htypes hs
  rw [expression_unary (.inl hkind) (.inl hop), hop, if_neg Bool.false_ne_true] at hs ⊢
  split at hs
  · rename_i hleast
    rw [if_pos hleast]
    rw [Bool.and_eq_true, beq_iff_eq] at hleast
    obtain ⟨rfl, hleast⟩ := hleast
    exact ⟨typed_least hkind hleast h, rfl⟩
  · rename_i hplain
    rw [if_neg hplain]
    obtain ⟨hsilent, hsilent'⟩ := hs.split (suffix_expression env s operand)
      (Quiet.unaryOperation _ op _ _).findings.suffix
    obtain ⟨htyped, hsame⟩ := ht s htypes hsilent
    obtain ⟨heq, hfits⟩ := hsilent'.unaryOperation htyped.ne_unknown
    rw [heq]
    refine ⟨?_, hsame⟩
    by_cases hnot : op = .not
    · rw [if_pos hnot] at hfits
      rw [hnot] at hkind
      rw [hfits] at htyped ⊢
      exact .not hkind htyped
    · rw [if_neg hnot] at hfits
      refine .sign hkind ?_ htyped hfits
      cases op with
      | not => exact absurd rfl hnot
      | increment | decrement => cases hop
      | negate | plus => decide

end Unary

section Assignment

variable {op : AssignOp} {level : Nat}

/-- A plain assignment is typed if its value is. -/
theorem typed_simple (hΓ : Γ.Suits env) (hkind : d.kind = .assignment op)
    (hop : op.binaryOp? = none) (hname : Variables.nameOf? target = some name)
    (h : Conforms (.expression level) target) (hvalue : Typed Γ env value) :
    Typed Γ env (.node d [target, value]) := by
  intro s htypes hs
  rw [expression_simple hkind hop hname] at hs ⊢
  dsimp only at hs ⊢
  have hgiven := suffix_expression env s value
  have hwritten := (Keeps.write env (expression env s value).2 name
    (unparenthesize target).span).findings.suffix
  obtain ⟨hs, hconvert⟩ := hs.split (hgiven.trans hwritten)
    (Quiet.convert _ _ _ value.span).findings.suffix
  obtain ⟨hs, hwrite⟩ := hs.split hgiven hwritten
  obtain ⟨htyped, hsame⟩ := hvalue s htypes hs
  obtain ⟨hsame', hmeans⟩ := hwrite.write hΓ (hsame.trans htypes)
  have hplace := hasType_of_nameOf? h hname hmeans
  obtain ⟨heq, hconverts⟩ := hconvert.convert htyped.ne_unknown hplace.ne_unknown
  have hassign : op = .assign := by
    cases op with
    | assign => rfl
    | _ => cases hop
  rw [hassign] at hkind
  exact ⟨.assignment hkind hname hplace htyped hconverts, by rw [heq, hsame', hsame]⟩

/-- Up to its conversion a compound assignment is typed as the operation it stands for. -/
theorem typed_operation {arithmetic : BinaryOp} {site place : Span} (hΓ : Γ.Suits env)
    (hname : Variables.nameOf? target = some name) (h : Conforms (.expression level) target)
    (hvalue : Typed Γ env value) (htypes : s.types = Γ.types)
    {current given wanted result : Ty × State} (hcurrent : current = s.read env name place)
    (hgiven : given = expression env current.2 value)
    (hwanted : wanted = given.2.write env name place)
    (hresult : result = binaryOperation wanted.2 arithmetic current.1 given.1 site value)
    (hs : Silent s result.2) : HasType Γ target wanted.1 ∧ HasType Γ value given.1 ∧
      Allows arithmetic wanted.1 given.1 result.1 ∧ result.2.types = s.types := by
  have hread : s.findings <:+ current.2.findings := by
    rw [hcurrent]
    exact (Quiet.read env s name place).findings.suffix
  have hevaluated : current.2.findings <:+ given.2.findings := by
    rw [hgiven]
    exact suffix_expression env _ value
  have hwritten : given.2.findings <:+ wanted.2.findings := by
    rw [hwanted]
    exact (Keeps.write env _ name place).findings.suffix
  have hoperated : wanted.2.findings <:+ result.2.findings := by
    rw [hresult]
    exact (Quiet.binaryOperation _ arithmetic _ _ _ value).findings.suffix
  obtain ⟨hs, hoperation⟩ := hs.split ((hread.trans hevaluated).trans hwritten) hoperated
  obtain ⟨hs, hwrite⟩ := hs.split (hread.trans hevaluated) hwritten
  obtain ⟨hs, hvalued⟩ := hs.split hread hevaluated
  rw [hcurrent] at hs
  obtain ⟨hsame, hmeans⟩ := hs.read hΓ htypes
  rw [← hcurrent] at hsame hmeans
  rw [hgiven] at hvalued
  obtain ⟨htyped, hsame'⟩ := hvalue _ (hsame.trans htypes) hvalued
  rw [← hgiven] at htyped hsame'
  rw [hwanted] at hwrite
  obtain ⟨hsame'', -⟩ := hwrite.write hΓ ((hsame'.trans hsame).trans htypes)
  have heq : wanted.1 = current.1 := by
    rw [hwanted, hcurrent]
    exact (read_eq_write (hsame'.trans hsame).symm).symm
  rw [← hwanted] at hsame''
  have hplace := hasType_of_nameOf? h hname hmeans
  rw [hresult] at hoperation
  obtain ⟨hstate, hallowed⟩ := hoperation.binaryOperation hplace.ne_unknown htyped.ne_unknown
  rw [← hresult] at hstate hallowed
  rw [heq]
  exact ⟨hplace, htyped, hallowed, by rw [hstate, hsame'', hsame', hsame]⟩

/-- A compound assignment is typed if its value is. -/
theorem typed_compound {arithmetic : BinaryOp} (hΓ : Γ.Suits env) (hkind : d.kind = .assignment op)
    (hop : op.binaryOp? = some arithmetic) (hname : Variables.nameOf? target = some name)
    (h : Conforms (.expression level) target) (hvalue : Typed Γ env value) :
    Typed Γ env (.node d [target, value]) := by
  intro s htypes hs
  rw [expression_compound hkind hop hname] at hs ⊢
  dsimp only at hs ⊢
  split at hs
  · rename_i htext
    rw [if_pos htext]
    rw [Bool.and_eq_true, beq_iff_eq, beq_iff_eq] at htext
    obtain ⟨rfl, htext⟩ := htext
    obtain ⟨hplace, htyped, hallowed, hsame⟩ :=
      typed_operation hΓ hname h hvalue htypes rfl rfl rfl rfl hs
    refine ⟨.compound hkind hop hname hplace htyped hallowed ?_, hsame⟩
    rw [htext] at hallowed ⊢
    rw [hallowed.eq_string]
    exact .refl _
  · rename_i hplain
    rw [if_neg hplain]
    have hread := (Quiet.read env s name (unparenthesize target).span).keeps
    have hwritten := (hread.trans (keeps_expression env _ value)).trans
      (.write env _ name (unparenthesize target).span)
    obtain ⟨hs, hconvert⟩ := hs.split
      (hwritten.quiet (.binaryOperation _ arithmetic _ _ target.span value)).findings.suffix
      (Quiet.convert _ _ _ value.span).findings.suffix
    obtain ⟨hplace, htyped, hallowed, hsame⟩ :=
      typed_operation hΓ hname h hvalue htypes rfl rfl rfl rfl hs
    obtain ⟨heq, hconverts⟩ := hconvert.convert hallowed.ne_unknown hplace.ne_unknown
    exact ⟨.compound hkind hop hname hplace htyped hallowed hconverts, by rw [heq, hsame]⟩

/-- An assignment is typed if its value is. -/
theorem typed_assignment (hΓ : Γ.Suits env) (hkind : d.kind = .assignment op)
    (h : Conforms (.expression level) target) (hvalue : Typed Γ env value) :
    Typed Γ env (.node d [target, value]) := by
  cases hname : Variables.nameOf? target with
  | some name =>
      cases hop : op.binaryOp? with
      | none => exact typed_simple hΓ hkind hop hname h hvalue
      | some arithmetic => exact typed_compound hΓ hkind hop hname h hvalue
  | none =>
      intro s htypes hs
      rw [expression_elsewhere hkind hname] at hs
      obtain ⟨-, hreport⟩ := hs.split
        ((suffix_expression env s target).trans (suffix_expression env _ value))
        (List.suffix_cons _ _)
      exact absurd hreport (Silent.not_report rfl)

end Assignment

/-- **Expressions one after another** have the types that the rules give them, if no error is
found. -/
theorem typed_expressions {ts : List Tree} (h : ∀ t ∈ ts, Typed Γ env t)
    (htypes : s.types = Γ.types) (hs : Silent s (expressions env s ts).2) :
    List.Forall₂ (HasType Γ) ts ((expressions env s ts).1.map Prod.snd) ∧
      (expressions env s ts).2.types = s.types := by
  induction ts generalizing s with
  | nil =>
      rw [expressions]
      exact ⟨.nil, rfl⟩
  | cons t ts ih =>
      rw [List.forall_mem_cons] at h
      rw [expressions] at hs ⊢
      dsimp only at hs ⊢
      obtain ⟨hhere, hrest⟩ := hs.split (suffix_expression env s t)
        (keeps_expressions (fun t _ s => keeps_expression env s t) _).findings.suffix
      obtain ⟨htyped, hsame⟩ := h.1 s htypes hhere
      obtain ⟨hall, hsame'⟩ := ih h.2 (hsame.trans htypes) hrest
      exact ⟨.cons htyped hall, hsame'.trans hsame⟩

/-- A call is typed if its arguments are. -/
theorem typed_invocation {callee : String} (hΓ : Γ.Suits env) (hkind : d.kind = .invocation callee)
    (h : ∀ t ∈ cs, Typed Γ env t) : Typed Γ env (.node d cs) := by
  intro s htypes hs
  rw [expression_invocation hkind] at hs ⊢
  obtain ⟨hargs, hcall⟩ := hs.split
    (keeps_expressions (fun t _ s => keeps_expression env s t) _).findings.suffix
    (Quiet.call env _ callee _ _).findings.suffix
  obtain ⟨htyped, hsame⟩ := typed_expressions h htypes hargs
  have hknown : ∀ a ∈ (expressions env s cs).1, a.2 ≠ .unknown := by
    intro a ha hunknown
    exact HasType.unknown_not_mem htyped (hunknown ▸ List.mem_map_of_mem ha)
  obtain ⟨heq, hcalls⟩ := hcall.call hΓ hknown
  exact ⟨.invocation hkind htyped hcalls, by rw [heq, hsame]⟩

/-- **An expression that is checked in silence has the type that the check gives it.** -/
theorem typed_expression (hΓ : Γ.Suits env) {level : Nat} (h : Conforms (.expression level) t) :
    Typed Γ env t := by
  refine h.inductionOn (motive := fun symbol t =>
    ∀ level, symbol = .expression level → Typed Γ env t) ?_ level rfl
  intro symbol d ss cs rule _ children level hsymbol
  subst hsymbol
  generalize hkind : d.kind = k at rule
  cases rule with
  | literal v =>
      cases children
      exact typed_literal hkind
  | identifier name =>
      cases children
      exact typed_identifier hΓ hkind
  | parenthesized =>
      obtain ⟨inner, rfl, hinner⟩ := exists_eq_singleton children
      intro s htypes hs
      rw [expression_parenthesized hkind] at hs ⊢
      obtain ⟨htyped, hsame⟩ := hinner.2 _ rfl s htypes hs
      exact ⟨.parenthesized hkind htyped, hsame⟩
  | binary op =>
      obtain ⟨l, r, rfl, hl, hr⟩ := exists_eq_pair children
      exact typed_binary hkind (hl.2 _ rfl) (hr.2 _ rfl)
  | prefixUnary op =>
      obtain ⟨operand, rfl, hoperand⟩ := exists_eq_singleton children
      cases hop : op.isStep with
      | true => exact typed_stepped hΓ (.inl hkind) hop hoperand.1
      | false => exact typed_unary hkind hop hoperand.1 (hoperand.2 _ rfl)
  | postfixUnary hop =>
      obtain ⟨operand, rfl, hoperand⟩ := exists_eq_singleton children
      exact typed_stepped hΓ (.inr hkind) hop hoperand.1
  | assignment op =>
      obtain ⟨target, value, rfl, htarget, hvalue⟩ := exists_eq_pair children
      exact typed_assignment hΓ hkind htarget.1 (hvalue.2 _ rfl)
  | invocation callee args =>
      exact typed_invocation hΓ hkind fun t ht =>
        (forall_mem_of_replicate children t ht).2 _ rfl

end Expressions

end SharpMutants.Check
