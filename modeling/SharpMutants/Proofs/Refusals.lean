import SharpMutants.Proofs.Scanning.Positions
import SharpMutants.Proofs.Scanning.Stops

/-!
# Where reading a source fails

A reader that is given some of the tokens leaves some of them, or it refuses one of them: its error
is at the start of the token and names its text, and none for the end of the input (`Stays`).
The property holds of what readers are put together from, so it holds of each reader, at every
bound on its depth.

With the place at which scanning stops (`Scan.exists_cut_of_scan`) this says where an error of
`parse` is: behind tokens that cut the source into its words up to there, at a token that is
refused, at the end of the source, or at a place at which no piece begins (`Fails`).
-/

namespace SharpMutants

namespace Parser

/-- Some of the tokens are left, up to the end of the input. -/
structure Left (tokens : List Token) (c : Cursor) : Prop where
  suffix : c.rest <:+ tokens
  ends : ∃ t ∈ c.rest.getLast?, t.kind = .endOfInput

/-- An error refuses one of the tokens. -/
def Refuses (tokens : List Token) (e : Nat × ParseCause) : Prop :=
  ∃ t ∈ tokens, ∃ expected, e = (t.span.start,
    .unexpectedToken expected (if t.kind = .endOfInput then none else some t.text))

/-- A reader that is given some of the tokens leaves some of them or refuses one of them. -/
def Stays {α : Type} (tokens : List Token) (p : Parser α) : Prop :=
  ∀ c, Left tokens c → match p c with
    | .ok (_, c') => Left tokens c'
    | .error e => Refuses tokens e

/-! ## Places -/

namespace Left

variable {tokens : List Token} {c : Cursor}

/-- The next token is one of the tokens. -/
theorem next_mem (h : Left tokens c) : c.next ∈ tokens := by
  obtain ⟨last, hlast, -⟩ := h.ends
  obtain ⟨stop, rest⟩ := c
  cases rest with
  | nil => cases hlast
  | cons t ts => exact h.suffix.subset List.mem_cons_self

/-- A step leaves some of the tokens: it does not go beyond the end of the input. -/
theorem step (h : Left tokens c) : Left tokens c.step := by
  obtain ⟨last, hlast, hend⟩ := h.ends
  obtain ⟨stop, rest⟩ := c
  cases rest with
  | nil => exact h
  | cons t ts =>
      rw [Cursor.step]
      dsimp only
      split
      · exact h
      · rename_i hreal
        cases ts with
        | nil =>
            rw [Option.mem_def, List.getLast?_singleton, Option.some.injEq] at hlast
            exact absurd (hlast ▸ hend) hreal
        | cons u us =>
            exact ⟨(List.suffix_cons t (u :: us)).trans h.suffix, last, hlast, hend⟩

end Left

/-! ## What readers are put together from -/

section Parts

variable {α β : Type} {tokens : List Token} {p q : Parser α} {f : α → Parser β}

theorem stays_pure (a : α) : Stays tokens (pure a : Parser α) := fun _ hc => hc

/-- A reader that goes on keeps to the tokens, if both parts do. -/
theorem Stays.bind (hp : Stays tokens p) (hf : ∀ a, Stays tokens (f a)) :
    Stays tokens (p >>= f) := by
  intro c hc
  have hfirst := hp c hc
  show match p c >>= fun r => f r.1 r.2 with
    | .ok (_, c') => Left tokens c'
    | .error e => Refuses tokens e
  cases hread : p c with
  | error e =>
      rw [hread] at hfirst
      exact hfirst
  | ok r =>
      rw [hread] at hfirst
      exact hf r.1 r.2 hfirst

/-- Dropping a result keeps to the tokens. -/
theorem Stays.discard (hp : Stays tokens p) :
    Stays tokens (Functor.discard p : Parser PUnit) := hp.bind fun _ => stays_pure _

/-- A choice keeps to the tokens, if both sides do. -/
theorem Stays.ite {P : Prop} [Decidable P] (hp : Stays tokens p) (hq : Stays tokens q) :
    Stays tokens (if P then p else q) := by
  split
  · exact hp
  · exact hq

theorem stays_peek : Stays tokens peek := fun _ hc => hc

theorem stays_peekSecond : Stays tokens peekSecond := fun _ hc => hc

theorem stays_lastStop : Stays tokens lastStop := fun _ hc => hc

theorem stays_take : Stays tokens take := fun _ hc => hc.step

/-- **A refusal is of the next token.** -/
theorem stays_refuse (expected : Expected) : Stays tokens (refuse expected : Parser α) :=
  fun c hc => ⟨c.next, hc.next_mem, expected, rfl⟩

/-- Asking for the class of the next token keeps to the tokens. -/
theorem stays_at? (kind : TokenKind) : Stays tokens (at? kind) :=
  stays_peek.bind fun _ => stays_pure _

theorem stays_accept (kind : TokenKind) : Stays tokens (accept kind) :=
  (stays_at? kind).bind fun _ =>
    .ite (stays_take.discard.bind fun _ => stays_pure _) (stays_pure _)

/-- Expecting a token keeps to the tokens. -/
theorem stays_expect (kind : TokenKind) (expected : Expected) :
    Stays tokens (expect kind expected) :=
  (stays_at? kind).bind fun _ => .ite stays_take (stays_refuse expected)

theorem stays_mark (m : Mark) : Stays tokens (mark m) := stays_expect _ _

theorem stays_keyword (k : Keyword) : Stays tokens (keyword k) := stays_expect _ _

theorem stays_identifier : Stays tokens identifier := stays_expect _ _

/-- Making a node keeps to the tokens. -/
theorem stays_nodeFrom {start : Nat} {kind : Kind} {token : Option Span} {children : List Tree} :
    Stays tokens (nodeFrom start kind token children) :=
  stays_lastStop.bind fun _ => stays_pure _

theorem stays_valueType : Stays tokens valueType := by
  refine stays_peek.bind fun t => ?_
  cases valueType? t.kind with
  | none => exact stays_refuse _
  | some type => exact stays_take.discard.bind fun _ => stays_pure _

theorem stays_memberType : Stays tokens memberType :=
  (stays_accept _).bind fun _ => .ite (stays_pure _) stays_valueType

end Parts

/-! ## Names and lists -/

section Lists

variable {tokens : List Token} {first : Tree} {elements more : Parser (List Tree)}
  {element : Parser Tree}

theorem stays_dottedName (n : Nat) (name : String) : Stays tokens (dottedName n name) := by
  induction n generalizing name with
  | zero => exact stays_refuse _
  | succ n ih =>
      exact (stays_accept _).bind fun _ =>
        .ite (stays_identifier.bind fun _ => ih _) (stays_pure _)

theorem stays_qualifiedName (n : Nat) : Stays tokens (qualifiedName n) :=
  stays_identifier.bind fun _ => stays_dottedName n _

theorem stays_modifiers (n : Nat) : Stays tokens (modifiers n) := by
  induction n with
  | zero => exact stays_pure _
  | succ n ih =>
      refine stays_peek.bind fun t => ?_
      split
      · exact stays_take.discard.bind fun _ => ih.bind fun _ => stays_pure _
      · exact stays_pure _

/-- Elements up to a token keep to the tokens, if the elements do. -/
theorem Stays.unlessAt (h : Stays tokens elements) (kind : TokenKind) :
    Stays tokens (unlessAt kind elements) :=
  (stays_at? kind).bind fun _ => .ite (stays_pure _) h

/-- More elements after a comma keep to the tokens, if they do. -/
theorem Stays.andMore (h : Stays tokens more) : Stays tokens (andMore first more) :=
  (stays_accept _).bind fun _ => .ite (h.bind fun _ => stays_pure _) (stays_pure _)

/-- Elements up to a brace keep to the tokens, if they do. -/
theorem Stays.upToBrace (h : Stays tokens element) (hmore : Stays tokens more) :
    Stays tokens (upToBrace element more) :=
  (stays_at? _).bind fun _ => .ite (stays_pure _) <| (stays_at? _).bind fun _ =>
    .ite (stays_refuse _) (h.bind fun _ => hmore.bind fun _ => stays_pure _)

end Lists

/-! ## Expressions -/

section Expressions

variable {tokens : List Token}

theorem stays_literal (token : Token) (kind : LiteralKind) : Stays tokens (literal token kind) :=
  stays_take.discard.bind fun _ => stays_pure _

/-- Parentheses keep to the tokens, if what they hold does. -/
theorem Stays.parenthesized {inner : Parser Tree} (h : Stays tokens inner) (start : Nat) :
    Stays tokens (parenthesized start inner) :=
  stays_take.discard.bind fun _ => h.bind fun _ => (stays_mark _).discard.bind fun _ =>
    stays_nodeFrom

/-- A call keeps to the tokens, if its arguments do. -/
theorem Stays.call {args : Parser (List Tree)} (h : Stays tokens args) (n : Nat) (token : Token) :
    Stays tokens (call n token args) :=
  (stays_dottedName n _).bind fun _ => (stays_expect _ _).discard.bind fun _ =>
    (h.unlessAt _).bind fun _ => (stays_mark _).discard.bind fun _ => stays_nodeFrom

/-- A name or a call keeps to the tokens, if the arguments do. -/
theorem Stays.nameOrCall {args : Parser (List Tree)} (h : Stays tokens args) (n : Nat)
    (token : Token) : Stays tokens (nameOrCall n token args) :=
  stays_take.discard.bind fun _ => (stays_at? _).bind fun _ => (stays_at? _).bind fun _ =>
    .ite (h.call n token) (stays_pure _)

theorem stays_postfixTail (n : Nat) (operand : Tree) : Stays tokens (postfixTail n operand) := by
  induction n generalizing operand with
  | zero => exact stays_refuse _
  | succ n ih =>
      refine stays_peek.bind fun t => ?_
      cases postfixOp? t.kind with
      | none => exact stays_pure _
      | some op => exact stays_take.bind fun _ => ih _

mutual

/-- **An expression keeps to the tokens.** -/
theorem stays_expression : ∀ n, Stays tokens (expression n)
  | 0 => stays_refuse _
  | n + 1 => by
    rw [expression]
    refine (stays_binary n 1).bind fun target => stays_peek.bind fun t => ?_
    cases assignOp? t.kind with
    | none => exact stays_pure _
    | some op =>
        exact stays_take.bind fun _ => (stays_expression n).bind fun _ => stays_pure _

/-- A binary expression keeps to the tokens. -/
theorem stays_binary : ∀ n level, Stays tokens (binary n level)
  | 0, _ => stays_refuse _
  | n + 1, level => by
    rw [binary]
    exact (stays_unary n).bind fun left => stays_binaryTail n level left

/-- The rest of a binary expression keeps to the tokens. -/
theorem stays_binaryTail : ∀ n level left, Stays tokens (binaryTail n level left)
  | 0, _, _ => stays_refuse _
  | n + 1, level, left => by
    rw [binaryTail]
    refine stays_peek.bind fun t => ?_
    cases binaryOp? t.kind with
    | none => exact stays_pure _
    | some op =>
        exact .ite (stays_pure _) <| stays_take.bind fun _ =>
          (stays_binary n _).bind fun _ => stays_binaryTail n level _

/-- A unary expression keeps to the tokens. -/
theorem stays_unary : ∀ n, Stays tokens (unary n)
  | 0 => stays_refuse _
  | n + 1 => by
    rw [unary]
    refine stays_peek.bind fun t => ?_
    cases prefixOp? t.kind with
    | none => exact (stays_primary n).bind fun _ => stays_postfixTail n _
    | some op => exact stays_take.bind fun _ => (stays_unary n).bind fun _ => stays_pure _

/-- A primary expression keeps to the tokens. -/
theorem stays_primary : ∀ n, Stays tokens (primary n)
  | 0 => stays_refuse _
  | n + 1 => by
    rw [primary]
    refine stays_peek.bind fun t => ?_
    cases literalKind? t.kind with
    | some kind => exact stays_literal t kind
    | none =>
        exact .ite ((stays_expression n).parenthesized _)
          (.ite ((stays_arguments n).nameOrCall n t) (stays_refuse _))

/-- Arguments keep to the tokens. -/
theorem stays_arguments : ∀ n, Stays tokens (arguments n)
  | 0 => stays_refuse _
  | n + 1 => by
    rw [arguments]
    exact (stays_expression n).bind fun _ => (stays_arguments n).andMore

end

end Expressions

/-! ## Statements -/

section Statements

variable {tokens : List Token}

theorem stays_initializer (n : Nat) : Stays tokens (initializer n) :=
  (stays_accept _).bind fun _ => .ite ((stays_expression n).bind fun _ => stays_pure _)
    (stays_pure _)

theorem stays_declarators (n : Nat) : Stays tokens (declarators n) := by
  induction n with
  | zero => exact stays_refuse _
  | succ n ih =>
      exact stays_identifier.bind fun _ => (stays_initializer n).bind fun _ =>
        stays_nodeFrom.bind fun _ => ih.andMore

/-- A declaration of variables keeps to the tokens. -/
theorem stays_variableDeclaration (n start : Nat) (type : TypeName) :
    Stays tokens (variableDeclaration n start type) :=
  (stays_declarators n).bind fun _ => stays_nodeFrom

theorem stays_condition (n : Nat) : Stays tokens (condition n) :=
  (stays_mark _).discard.bind fun _ => (stays_expression n).bind fun _ =>
    (stays_mark _).discard.bind fun _ => stays_pure _

theorem stays_forInit (n : Nat) : Stays tokens (forInit n) := by
  refine stays_peek.bind fun head => ?_
  cases valueType? head.kind with
  | none => exact stays_expression n
  | some type => exact stays_take.discard.bind fun _ => stays_variableDeclaration n _ type

/-- Braces keep to the tokens, if the statements do. -/
theorem Stays.braced {statements : Parser (List Tree)} (h : Stays tokens statements) :
    Stays tokens (braced statements) :=
  (stays_mark _).bind fun _ => h.bind fun _ => stays_take.discard.bind fun _ => stays_nodeFrom

theorem stays_emptyStatement (start : Nat) : Stays tokens (emptyStatement start) :=
  stays_take.discard.bind fun _ => stays_nodeFrom

/-- An `else` keeps to the tokens, if its branch does. -/
theorem Stays.elseClause {branch : Parser Tree} (h : Stays tokens branch) :
    Stays tokens (elseClause branch) :=
  stays_peek.bind fun _ => .ite
    (stays_take.discard.bind fun _ => h.bind fun _ => stays_nodeFrom.bind fun _ =>
      stays_pure _)
    (stays_pure _)

/-- An `if` keeps to the tokens, if its branches do. -/
theorem Stays.ifStatement {branch : Parser Tree} (h : Stays tokens branch) (n start : Nat) :
    Stays tokens (ifStatement n start branch) :=
  stays_take.discard.bind fun _ => (stays_condition n).bind fun _ => h.bind fun _ =>
    h.elseClause.bind fun _ => stays_nodeFrom

/-- A `while` keeps to the tokens, if its body does. -/
theorem Stays.whileStatement {body : Parser Tree} (h : Stays tokens body) (n start : Nat) :
    Stays tokens (whileStatement n start body) :=
  stays_take.discard.bind fun _ => (stays_condition n).bind fun _ => h.bind fun _ =>
    stays_nodeFrom

/-- A `for` keeps to the tokens, if its body does. -/
theorem Stays.forStatement {body : Parser Tree} (h : Stays tokens body) (n start : Nat) :
    Stays tokens (forStatement n start body) :=
  stays_take.discard.bind fun _ => (stays_mark _).discard.bind fun _ =>
    (stays_forInit n).bind fun _ => (stays_mark _).discard.bind fun _ =>
      (stays_expression n).bind fun _ => (stays_mark _).discard.bind fun _ =>
        (stays_expression n).bind fun _ => (stays_mark _).discard.bind fun _ =>
          h.bind fun _ => stays_nodeFrom

theorem stays_returnStatement (n start : Nat) : Stays tokens (returnStatement n start) :=
  stays_take.discard.bind fun _ =>
    (Stays.unlessAt ((stays_expression n).bind fun _ => stays_pure _) _).bind fun _ =>
      (stays_mark _).discard.bind fun _ => stays_nodeFrom

/-- A declaration of locals keeps to the tokens. -/
theorem stays_localDeclaration (n start : Nat) (type : TypeName) :
    Stays tokens (localDeclaration n start type) :=
  stays_take.discard.bind fun _ => (stays_variableDeclaration n start type).bind fun _ =>
    (stays_mark _).discard.bind fun _ => stays_nodeFrom

/-- An expression statement keeps to the tokens. -/
theorem stays_expressionStatement (n start : Nat) :
    Stays tokens (expressionStatement n start) :=
  (stays_expression n).bind fun _ => (stays_mark _).discard.bind fun _ => stays_nodeFrom

mutual

/-- A block keeps to the tokens. -/
theorem stays_block : ∀ n, Stays tokens (block n)
  | 0 => stays_refuse _
  | n + 1 => by
    rw [block]
    exact (stays_statements n).braced

/-- Statements in a row keep to the tokens. -/
theorem stays_statements : ∀ n, Stays tokens (statements n)
  | 0 => stays_refuse _
  | n + 1 => by
    rw [statements]
    exact (stays_statement n).upToBrace (stays_statements n)

/-- **A statement keeps to the tokens.** -/
theorem stays_statement : ∀ n, Stays tokens (statement n)
  | 0 => stays_refuse _
  | n + 1 => by
    rw [statement]
    refine stays_peek.bind fun t => ?_
    dsimp only
    split
    · exact stays_block n
    · exact stays_emptyStatement _
    · exact (stays_statement n).ifStatement n _
    · exact (stays_statement n).whileStatement n _
    · exact (stays_statement n).forStatement n _
    · exact stays_returnStatement n _
    · exact stays_refuse _
    · split
      · exact stays_localDeclaration n _ _
      · exact stays_expressionStatement n _

end

end Statements

/-! ## Declarations -/

section Declarations

variable {tokens : List Token}

theorem stays_parameters (n : Nat) : Stays tokens (parameters n) := by
  induction n with
  | zero => exact stays_refuse _
  | succ n ih =>
      exact stays_peek.bind fun _ => stays_valueType.bind fun _ => stays_identifier.bind fun _ =>
        stays_nodeFrom.bind fun _ => ih.andMore

/-- A method keeps to the tokens. -/
theorem stays_methodRest (n start : Nat) (ms : List Modifier) (type : TypeName) :
    Stays tokens (methodRest n start ms type) :=
  stays_identifier.bind fun _ => (stays_mark _).discard.bind fun _ =>
    ((stays_parameters n).unlessAt _).bind fun _ => (stays_mark _).discard.bind fun _ =>
      (stays_block n).bind fun _ => stays_nodeFrom

/-- A field keeps to the tokens. -/
theorem stays_fieldRest (n start typeStart : Nat) (ms : List Modifier) (type : TypeName) :
    Stays tokens (fieldRest n start typeStart ms type) :=
  (stays_variableDeclaration n typeStart type).bind fun _ => (stays_mark _).discard.bind fun _ =>
    stays_nodeFrom

theorem stays_member (n : Nat) : Stays tokens (member n) :=
  stays_peek.bind fun _ => (stays_modifiers n).bind fun _ => stays_peek.bind fun _ =>
    stays_memberType.bind fun _ => (stays_at? _).bind fun _ => stays_peekSecond.bind fun _ =>
      .ite (stays_methodRest n _ _ _) (.ite (stays_refuse _) (stays_fieldRest n _ _ _ _))

theorem stays_members (n : Nat) : Stays tokens (members n) := by
  induction n with
  | zero => exact stays_refuse _
  | succ n ih => exact (stays_member n).upToBrace ih

theorem stays_classDecl (n : Nat) : Stays tokens (classDecl n) :=
  stays_peek.bind fun _ => (stays_modifiers n).bind fun _ => (stays_keyword _).discard.bind fun _ =>
    stays_identifier.bind fun _ => (stays_mark _).discard.bind fun _ =>
      (stays_members n).bind fun _ => stays_take.discard.bind fun _ => stays_nodeFrom

theorem stays_classes (n : Nat) : Stays tokens (classes n) := by
  induction n with
  | zero => exact stays_refuse _
  | succ n ih => exact (stays_classDecl n).upToBrace ih

theorem stays_namespaceDecl (n : Nat) : Stays tokens (namespaceDecl n) :=
  (stays_keyword _).bind fun _ => (stays_qualifiedName n).bind fun _ =>
    (stays_mark _).discard.bind fun _ => (stays_classes n).bind fun _ =>
      stays_take.discard.bind fun _ => stays_nodeFrom

theorem stays_usings (n : Nat) : Stays tokens (usings n) := by
  induction n with
  | zero => exact stays_pure _
  | succ n ih =>
      exact (stays_at? _).bind fun _ => .ite
        (stays_take.bind fun _ => (stays_qualifiedName n).bind fun _ =>
          (stays_mark _).discard.bind fun _ => stays_nodeFrom.bind fun _ =>
            ih.bind fun _ => stays_pure _)
        (stays_pure _)

theorem stays_declaration (n : Nat) : Stays tokens (declaration n) :=
  (stays_at? _).bind fun _ => .ite (stays_namespaceDecl n) (stays_classDecl n)

theorem stays_declarations (n : Nat) : Stays tokens (declarations n) := by
  induction n with
  | zero => exact stays_refuse _
  | succ n ih =>
      exact (stays_at? _).bind fun _ => .ite (stays_pure _)
        ((stays_declaration n).bind fun _ => ih.bind fun _ => stays_pure _)

/-- **A source is read within its tokens.** -/
theorem stays_compilationUnit (n width : Nat) : Stays tokens (compilationUnit n width) :=
  (stays_usings n).bind fun _ => (stays_declarations n).bind fun _ => stays_pure _

end Declarations

end Parser

/-! ## The place of an error -/

/-- What an error is about: what stands at its offset, behind some tokens of a source. -/
inductive Fails (source : Text) (ts : List Token) (offset : Nat) : ParseCause → Prop
  | scanning {cause : ParseCause} (stop : NoPiece cause (Text.dropBytes offset source)) :
      Fails source ts offset cause
  | token {t : Token} {us : List Token} {expected : Expected}
      (tokens : tokenize source = .ok (ts ++ t :: us)) (exact : t.Exact source)
      (starts : t.span.start = offset) :
      Fails source ts offset (.unexpectedToken expected (some t.text))
  | endOfInput {expected : Expected}
      (tokens : tokenize source = .ok (ts ++ [⟨.endOfInput, [], ⟨offset, offset⟩⟩]))
      (ends : offset = source.width) : Fails source ts offset (.unexpectedToken expected none)

variable {source : Text} {ts us : List Token} {t : Token} {o : Nat}

/-- The gaps before a token do not depend on what follows its start. -/
theorem Gaps.upTo (h : Gaps source o (ts ++ t :: us)) :
    Gaps source o (ts ++ [⟨.endOfInput, [], ⟨t.span.start, t.span.start⟩⟩]) := by
  induction ts generalizing o with
  | nil => exact ⟨h.1, trivial⟩
  | cons u ts ih => exact ⟨h.1, ih h.2⟩

/-- A token of a class is not the end of the input. -/
theorem Token.Exact.kind_ne (h : t.Exact source) : t.kind ≠ .endOfInput := by
  intro hkind
  have hspells := h.spells
  rw [hkind] at hspells
  cases hspells

/-- The tokens before a token of a source cut the source up to it, and the token is exact or the
end of the input. -/
theorem tokenize_before (h : tokenize source = .ok (ts ++ t :: us)) :
    Cut source 0 t.span.start ts ∧ (t.Exact source ∨
      (t = ⟨.endOfInput, [], ⟨source.width, source.width⟩⟩ ∧ us = [])) := by
  have hexact := (tokenize_exact source).2 _ h
  obtain ⟨all, hall, hwords⟩ := hexact.ends
  have horder := (tokenize_eq_ok.mp h).inOrder (List.nil_append source).symm rfl
  rw [List.map_append, List.map_cons, Text.InOrder.middle_iff] at horder
  rcases List.eq_nil_or_concat us with rfl | ⟨vs, v, rfl⟩
  · obtain ⟨rfl, hend⟩ := List.append_inj' hall rfl
    obtain rfl := (List.cons.inj hend).1
    exact ⟨⟨horder.1.1, hwords, hexact.gaps.upTo⟩, .inr ⟨rfl, rfl⟩⟩
  · rw [List.concat_eq_append, ← List.cons_append, ← List.append_assoc] at hall
    obtain ⟨rfl, -⟩ := List.append_inj' hall rfl
    exact ⟨⟨horder.1.1, fun u hu => hwords u (List.mem_append_left _ hu), hexact.gaps.upTo⟩,
      .inl (hwords t (List.mem_append_right _ List.mem_cons_self))⟩

/-- The tokens of a source are left when none is taken. -/
theorem Parser.left_tokens {tokens : List Token} (h : tokenize source = .ok tokens) :
    Left tokens ⟨0, tokens⟩ := by
  obtain ⟨all, hall, -⟩ := ((tokenize_exact source).2 _ h).ends
  rw [hall]
  exact ⟨List.suffix_rfl, _, List.getLast?_concat, rfl⟩

/-- A source is refused by the scanner, or by the readers within its tokens. -/
theorem exists_of_parse_error {e : ParseError} (h : parse source = .error e) :
    ∃ offset cause, e = .atOffset source offset cause ∧
      (Scan.scan 0 0 source = .error (offset, cause) ∨
        ∃ tokens, tokenize source = .ok tokens ∧ Parser.Refuses tokens (offset, cause)) := by
  rw [parse] at h
  cases htokens : tokenize source with
  | error e' =>
      rw [htokens] at h
      cases h
      rw [tokenize] at htokens
      cases hscan : Scan.scan 0 0 source with
      | ok ts =>
          rw [hscan] at htokens
          cases htokens
      | error stop =>
          rw [hscan] at htokens
          cases htokens
          exact ⟨stop.1, stop.2, rfl, .inl rfl⟩
  | ok tokens =>
      rw [htokens] at h
      have hstays := Parser.stays_compilationUnit (Parser.depthPerToken * (tokens.length + 1))
        source.width _ (Parser.left_tokens htokens)
      simp only [bind, Except.bind, StateT.run] at h
      cases hunit : Parser.compilationUnit (Parser.depthPerToken * (tokens.length + 1))
        source.width ⟨0, tokens⟩ with
      | ok r =>
          rw [hunit] at h
          cases h
      | error stop =>
          rw [hunit] at h hstays
          cases h
          exact ⟨stop.1, stop.2, rfl, .inr ⟨tokens, rfl, hstays⟩⟩

/-- **An error is at its place**: tokens cut the source into its words up to the offset, and what
stands there is what the cause says. -/
theorem exists_fails_of_parse_error {e : ParseError} (h : parse source = .error e) :
    e.position = source.positionAt e.offset ∧
      ∃ ts, Cut source 0 e.offset ts ∧ Fails source ts e.offset e.cause := by
  obtain ⟨offset, cause, rfl, hscan | ⟨tokens, htokens, t, ht, expected, hrefused⟩⟩ :=
    exists_of_parse_error h
  · obtain ⟨ts, hcut, hstop⟩ := Scan.exists_cut_of_scan hscan (List.nil_append source).symm rfl
    exact ⟨rfl, ts, hcut, .scanning hstop⟩
  · obtain ⟨rfl, rfl⟩ := Prod.mk.inj hrefused
    obtain ⟨ts, us, rfl⟩ := List.append_of_mem ht
    obtain ⟨hcut, hexact | ⟨rfl, rfl⟩⟩ := tokenize_before htokens
    · refine ⟨rfl, ts, hcut, ?_⟩
      rw [ParseError.atOffset, if_neg hexact.kind_ne]
      exact .token htokens hexact rfl
    · exact ⟨rfl, ts, hcut, .endOfInput htokens rfl⟩

/-- **Errors of reading a source identify their place.**  The offset of an error is a boundary of
the source.  The tokens before it cut the source into its words up to there, and at it begins the
token that is refused, or the source ends, or no piece begins, for the cause of the error.  Line
and column are those of the offset: they count line feeds before it, and characters on its line.
Over the boundaries of any source they are in the order of the offsets, so they stand for one
boundary only. -/
theorem parse_error_place (source : Text) :
    (∀ e, parse source = .error e → e.offset ≤ source.width ∧ source.Boundary e.offset ∧
      (∃ ts, Cut source 0 e.offset ts ∧ Fails source ts e.offset e.cause) ∧
      e.position = source.positionAt e.offset ∧
      ∀ a, source.Boundary a → (source.positionAt a = e.position ↔ a = e.offset)) ∧
    (∀ a, source.Boundary a → ∃ before after, source = before ++ after ∧
      Text.width before = a ∧ source.positionAt a =
        ⟨1 + before.count '\n', 1 + (before.rtakeWhile (· != '\n')).length⟩) ∧
    (∀ a b, source.Boundary a → source.Boundary b →
      ((source.positionAt a).Before (source.positionAt b) ↔ a < b)) ∧
    ∀ a b, source.Boundary a → source.Boundary b →
      (source.positionAt a = source.positionAt b ↔ a = b) := by
  refine ⟨fun e h => ?_, fun a ha => ha.positionAt_eq, fun a b ha hb => ha.positionAt_before_iff hb,
    fun a b ha hb => ha.positionAt_inj hb⟩
  obtain ⟨hposition, ts, hcut, hfails⟩ := exists_fails_of_parse_error h
  refine ⟨hcut.boundary.le_width, hcut.boundary, ⟨ts, hcut, hfails⟩, hposition, fun a ha => ?_⟩
  rw [hposition]
  exact ha.positionAt_inj hcut.boundary

/-- A class without a name, on the second line behind a character of two bytes. -/
def namelessClass : Text := "// é\nclass \x7b \x7d".toList

/-- Its brace is refused, at byte 12 and in column 7 of the second line; the line feed at byte 5
comes before it. -/
theorem parse_error_place_nameless : ∃ e ts, parse namelessClass = .error e ∧
    e.offset = 12 ∧ e.position = ⟨2, 7⟩ ∧ Cut namelessClass 0 12 ts ∧
    Fails namelessClass ts 12 e.cause ∧
    (namelessClass.positionAt 5).Before (namelessClass.positionAt 12) := by
  have hread : ((parse namelessClass).map fun _ => ()).mapError (fun e => (e.offset, e.position)) =
      .error (12, ⟨2, 7⟩) := by
    decide +kernel
  have hfeed : namelessClass.Boundary 5 := ⟨"// é".toList, _, rfl, rfl⟩
  have hbrace : namelessClass.Boundary 12 := ⟨"// é\nclass ".toList, _, rfl, rfl⟩
  obtain ⟨hplace, -, horder, -⟩ := parse_error_place namelessClass
  cases hparse : parse namelessClass with
  | ok d =>
      rw [hparse] at hread
      cases hread
  | error e =>
      rw [hparse] at hread
      obtain ⟨hoffset, hposition⟩ := Prod.mk.inj (Except.error.inj hread)
      obtain ⟨-, -, ⟨ts, hcut, hfails⟩, -, -⟩ := hplace e hparse
      rw [hoffset] at hcut hfails
      exact ⟨e, ts, rfl, hoffset, hposition, hcut, hfails,
        (horder 5 12 hfeed hbrace).mpr (by decide)⟩

end SharpMutants
