import SharpMutants.Proofs.Completeness.Expressions

/-!
# What derives a statement is read as it

Tokens that derive a statement are read as that statement, if an `else` comes next
only after a closed one.  The first token tells which reader is for them: what
begins an expression begins no other statement, and what begins a statement closes
no block.
-/

namespace SharpMutants

namespace Parser

variable {c c' : Cursor} {t : Tree} {ts : List Token}

/-! ## Series in braces -/

/-- A series up to a closing brace is read, if its elements are.  What begins an element,
`start`, is no closing brace. -/
theorem series_answers {R : Symbol → List Token → Tree → Prop} {s : Symbol}
    {first : Nat → Parser Tree} {p : Nat → Parser (List Tree)} (start : TokenKind → Prop)
    (hp : ∀ n, p (n + 1) = upToBrace (first n) (p n))
    (hstart : ∀ ⦃us t⦄, R s us t → ∃ v vs, us = v :: vs ∧ start v.kind)
    (hopen : ¬start (.mark .closeBrace))
    (hfirst : ∀ ⦃us t n c c'⦄, R s us t → Orderly c.rest → Took c us c' →
      (c'.next.kind = .mark .closeBrace ∨ start c'.next.kind) → 16 * us.length + 5 ≤ n →
      first n c = .ok (t, c'))
    {m n : Nat} {own : Option Span} {cs : List Tree}
    (row : Row R ((List.replicate m s).map Part.child) ts own cs) (horderly : Orderly c.rest)
    (took : Took c ts c') (hafter : c'.next.kind = .mark .closeBrace)
    (hn : 16 * ts.length + 6 ≤ n) : p n c = .ok (cs, c') ∧ own = none := by
  induction m generalizing n c ts cs with
  | zero =>
      obtain ⟨rfl, rfl, rfl⟩ := row.nil_inv
      obtain rfl := Took.nil_iff.mp took
      obtain ⟨n, rfl⟩ : ∃ n', n = n' + 1 := ⟨n - 1, by omega⟩
      rw [hp, upToBrace, at?_bind, if_pos (by simpa using hafter)]
      exact ⟨rfl, rfl⟩
  | succ m ih =>
      obtain ⟨us, vs, t, ds, rfl, rfl, here, rest⟩ := row.child_inv
      obtain ⟨c₁, took₁, took₂⟩ := took.split _
      obtain ⟨v, us, rfl, hv⟩ := hstart here
      rw [List.length_append, List.length_cons] at hn
      obtain ⟨n, rfl⟩ : ∃ n', n = n' + 1 := ⟨n - 1, by omega⟩
      obtain ⟨real, hnext, -⟩ := Took.cons_iff.mp took₁
      have hafter₁ : c₁.next.kind = .mark .closeBrace ∨ start c₁.next.kind := by
        cases m with
        | zero =>
            obtain ⟨rfl, -, -⟩ := rest.nil_inv
            obtain rfl := Took.nil_iff.mp took₂
            exact .inl hafter
        | succ m =>
            obtain ⟨ws, xs, _, _, rfl, -, next, -⟩ := rest.child_inv
            obtain ⟨w, ws, rfl, hw⟩ := hstart next
            rw [(Took.cons_iff.mp took₂).2.1]
            exact .inr hw
      have hread := hfirst here horderly took₁ hafter₁ (n := n) (by rw [List.length_cons]; omega)
      obtain ⟨hmore, hown⟩ := ih rest (took₁.orderly horderly) took₂ (n := n) (by omega)
      refine ⟨?_, hown⟩
      have hbrace : c.next.kind ≠ .mark .closeBrace := by
        rw [hnext]
        exact fun hkind => hopen (hkind ▸ hv)
      have hend : c.next.kind ≠ .endOfInput := by rwa [hnext]
      rw [hp, upToBrace, at?_bind, if_neg (by simpa using hbrace), at?_bind,
        if_neg (by simpa using hend), bind_eq hread, bind_eq hmore]
      rfl

/-! ## Declarations of variables -/

/-- Without an equals sign there is no initializer. -/
theorem initializer_none {n : Nat} (h : c.next.kind ≠ .mark .eq) :
    initializer n c = .ok ([], c) := by
  rw [initializer, bind_eq ((accept_ok (by nofun)).mpr (.inr ⟨rfl, h, rfl⟩))]
  rfl

/-- Behind an equals sign there is an initializer. -/
theorem initializer_some {n : Nat} {eq : Token} {c₁ : Cursor} (took : Took c [eq] c₁)
    (heq : eq.kind = .mark .eq) (hread : expression n c₁ = .ok (t, c')) :
    initializer n c = .ok ([t], c') := by
  rw [initializer, bind_eq ((accept_ok (by nofun)).mpr (.inl ⟨rfl, eq, heq, took⟩)), if_pos rfl,
    bind_eq hread]
  rfl

/-- A declarator is read, and then what follows it in its list. -/
theorem declarator_answers {n : Nat} (h : Derives .variableDeclarator ts t)
    (horderly : Orderly c.rest) (took : Took c ts c')
    (hafter : c'.next.kind = .mark .comma ∨ c'.next.kind = .mark .semicolon)
    (hn : 16 * ts.length + 4 ≤ n) :
    declarators (n + 1) c = andMore t (declarators n) c' := by
  obtain ⟨rule, row⟩ := h
  cases rule with
  | uninitialized name =>
      obtain ⟨word, _, _, rfl, rfl, hword, row₁⟩ := row.own_inv
      obtain ⟨rfl, -, rfl⟩ := row₁.nil_inv
      have hkind : word.kind = .identifier := congrArg Lexeme.kind hword
      have heq : c'.next.kind ≠ .mark .eq := by rcases hafter with h | h <;> rw [h] <;> nofun
      rw [declarators, bind_eq (identifier_ok.mpr ⟨hkind, took⟩), bind_eq (initializer_none heq),
        bind_eq (nodeFrom_eq took), nameOf_eq hword]
  | initialized name =>
      obtain ⟨word, _, _, rfl, rfl, hword, row₁⟩ := row.own_inv
      obtain ⟨eq, _, rfl, heq, row₂⟩ := row₁.word_inv
      obtain ⟨us, _, value, _, rfl, rfl, hvalue, row₃⟩ := row₂.child_inv
      obtain ⟨rfl, -, rfl⟩ := row₃.nil_inv
      rw [List.append_nil] at took hn ⊢
      rw [List.length_cons, List.length_cons] at hn
      obtain ⟨c₁, took₁, tookRest⟩ := took.split [word]
      obtain ⟨c₂, took₂, took₃⟩ := tookRest.split [eq]
      have hkind : word.kind = .identifier := congrArg Lexeme.kind hword
      have heqKind : eq.kind = .mark .eq := congrArg Lexeme.kind heq
      have hexpression : AfterExpression c' := by
        rcases hafter with h | h
        · exact .inr (.inr h)
        · exact .inr (.inl h)
      have hread : expression n c₂ = .ok (value, c') :=
        (answersLevel hvalue).expression (took₂.orderly (took₁.orderly horderly)) took₃
          hexpression (by omega)
      rw [declarators, bind_eq (identifier_ok.mpr ⟨hkind, took₁⟩),
        bind_eq (initializer_some took₂ heqKind hread), bind_eq (nodeFrom_eq took),
        nameOf_eq hword]

/-- A variable declaration is read after its type, the first token. -/
theorem variableDeclaration_answers {n : Nat} (h : Derives .variableDeclaration ts t)
    (horderly : Orderly c.rest) (took : Took c ts c') (hafter : c'.next.kind = .mark .semicolon)
    (hn : 16 * ts.length ≤ n) :
    ∃ type, valueType? c.next.kind = some type ∧
      variableDeclaration n c.next.span.start type c.step = .ok (t, c') := by
  obtain ⟨rule, row⟩ := h
  cases rule with
  | @variableDeclaration type value more =>
      obtain ⟨word, us, rfl, hword, row₁⟩ := row.word_inv
      obtain ⟨c₁, took₁, took₂⟩ := took.split [word]
      obtain ⟨-, rfl, rfl⟩ := Took.one_iff.mp took₁
      have hkind : c.next.kind = .keyword (.typeName type) := congrArg Lexeme.kind hword
      rw [List.length_cons] at hn
      obtain ⟨hread, rfl⟩ := commas_answers .semicolon (p := declarators) (by nofun)
        (fun _ _ _ _ _ => declarator_answers) row₁ (took₁.orderly horderly) took₂ hafter
        (n := n) (by omega)
      refine ⟨type, valueType?_eq_some.mpr ⟨hkind, value⟩, ?_⟩
      rw [variableDeclaration, bind_eq hread]
      exact nodeFrom_eq took

/-! ## Statements one by one -/

/-- An expression is read up to the mark behind it. -/
theorem expression_ends {n : Nat} {c₁ : Cursor} {m : Mark} {last : Token}
    (h : Derives (.expression 0) ts t) (horderly : Orderly c.rest) (took : Took c ts c₁)
    (tookLast : Took c₁ [last] c') (hlast : last.kind = .mark m)
    (hmark : m = .closeParen ∨ m = .semicolon) (hn : 16 * ts.length + 4 ≤ n) :
    expression n c = .ok (t, c₁) ∧ mark m c₁ = .ok (last, c') := by
  have hnext : c₁.next.kind = .mark m := by rw [(Took.one_iff.mp tookLast).2.1, hlast]
  refine ⟨(answersLevel h).expression horderly took ?_ hn, mark_ok.mpr ⟨hlast, tookLast⟩⟩
  rcases hmark with rfl | rfl
  · exact .inl hnext
  · exact .inr (.inl hnext)

/-- A condition is read in its parentheses. -/
theorem condition_answers {n : Nat} {c₁ c₂ : Cursor} {open_ close : Token}
    (horderly : Orderly c.rest) (took₁ : Took c [open_] c₁) (hopen : open_.lexeme = .mark .openParen)
    (h : Derives (.expression 0) ts t) (took₂ : Took c₁ ts c₂) (took₃ : Took c₂ [close] c')
    (hclose : close.lexeme = .mark .closeParen) (hn : 16 * ts.length + 4 ≤ n) :
    condition n c = .ok (t, c') := by
  have hopenKind : open_.kind = .mark .openParen := congrArg Lexeme.kind hopen
  have hcloseKind : close.kind = .mark .closeParen := congrArg Lexeme.kind hclose
  obtain ⟨hread, hmark⟩ :=
    expression_ends h (took₁.orderly horderly) took₂ took₃ hcloseKind (.inl rfl) hn
  rw [condition, discard_bind_eq (mark_ok.mpr ⟨hopenKind, took₁⟩), bind_eq hread,
    discard_bind_eq hmark]
  rfl

/-- What starts an expression is no type. -/
theorem valueType?_eq_none {k : TokenKind} (h : startsExpression k = true) :
    valueType? k = none := by
  cases k with
  | keyword k => cases k <;> first | rfl | cases h
  | _ => rfl

/-- The initializer of a loop is read up to the semicolon. -/
theorem forInit_answers {n : Nat}
    (h : Derives .variableDeclaration ts t ∨ Derives (.expression 0) ts t)
    (horderly : Orderly c.rest) (took : Took c ts c') (hafter : c'.next.kind = .mark .semicolon)
    (hn : 16 * ts.length + 4 ≤ n) : forInit n c = .ok (t, c') := by
  rcases h with h | h
  · obtain ⟨type, htype, hread⟩ := variableDeclaration_answers h horderly took hafter
      (n := n) (by omega)
    rw [forInit, peek_bind, htype]
    exact hread
  · obtain ⟨u, us, rfl, hu⟩ := exists_start h
    have hnext := (Took.cons_iff.mp took).2.1
    rw [forInit, peek_bind, hnext, valueType?_eq_none hu]
    exact (answersLevel h).expression horderly took (.inr (.inl hafter)) hn

/-- What the tokens of the parts of a statement are read as. -/
def AnswersStatement : Symbol → List Token → Tree → Prop
  | .statement closed, ts, t => ∀ ⦃n : Nat⦄ ⦃c c' : Cursor⦄, Orderly c.rest → Took c ts c' →
      (c'.next.kind = .keyword .elseWord → closed = true) → 16 * ts.length + 5 ≤ n →
      statement n c = .ok (t, c')
  | .elseClause closed, ts, t => ∀ ⦃n : Nat⦄ ⦃c c' : Cursor⦄, Orderly c.rest → Took c ts c' →
      (c'.next.kind = .keyword .elseWord → closed = true) → 16 * ts.length ≤ n →
      elseClause (statement n) c = .ok ([t], c')
  | .body, ts, t => ∀ ⦃n : Nat⦄ ⦃c c' : Cursor⦄, Orderly c.rest → Took c ts c' →
      16 * ts.length ≤ n → block n c = .ok (t, c')
  | _, _, _ => True

/-- What the tokens of a child are, and what they are read as. -/
def AnsweredStatement (s : Symbol) (ts : List Token) (t : Tree) : Prop :=
  Derives s ts t ∧ AnswersStatement s ts t

/-- What begins a statement. -/
def startsStatement (k : TokenKind) : Prop :=
  k ≠ .mark .closeBrace ∧ k ≠ .keyword .elseWord

/-- What starts an expression starts a statement. -/
theorem startsStatement_of_expression {k : TokenKind} (h : startsExpression k = true) :
    startsStatement k := by
  constructor <;> rintro rfl <;> cases h

/-- Every statement starts as one. -/
theorem exists_start_statement {closed : Bool} (h : Derives (.statement closed) ts t) :
    ∃ u us, ts = u :: us ∧ startsStatement u.kind := by
  have ofLexeme {u : Token} {us : List Token} {l : Lexeme} (hu : u.lexeme = l)
      (hl : startsStatement l.kind) : ∃ v vs, u :: us = v :: vs ∧ startsStatement v.kind := by
    subst hu
    exact ⟨u, us, rfl, hl⟩
  obtain ⟨rule, row⟩ := h
  cases rule with
  | localDeclaration =>
      obtain ⟨us, vs, _, _, rfl, rfl, ⟨rule', row'⟩, -⟩ := row.child_inv
      cases rule' with
      | variableDeclaration value more =>
          obtain ⟨word, us, rfl, hword, -⟩ := row'.word_inv
          exact ofLexeme hword ⟨nofun, nofun⟩
  | expressionStatement =>
      obtain ⟨us, vs, _, _, rfl, rfl, here, -⟩ := row.child_inv
      obtain ⟨u, us, rfl, hu⟩ := exists_start here
      exact ⟨u, us ++ vs, rfl, startsStatement_of_expression hu⟩
  | _ =>
      obtain ⟨word, us, rfl, hword, -⟩ := row.word_inv
      exact ofLexeme hword ⟨nofun, nofun⟩

/-- **The statements of a block** are read as their trees, up to the closing brace. -/
theorem statements_answers {m n : Nat} {own : Option Span} {cs : List Tree}
    (row : Row AnsweredStatement ((List.replicate m (.statement false)).map Part.child) ts own cs)
    (horderly : Orderly c.rest) (took : Took c ts c') (hafter : c'.next.kind = .mark .closeBrace)
    (hn : 16 * ts.length + 6 ≤ n) : statements n c = .ok (cs, c') ∧ own = none := by
  refine series_answers _ (fun _ => rfl) (fun us t h => exists_start_statement h.1)
    (fun h => h.1 rfl) ?_ row horderly took hafter hn
  intro us t n c c' h horderly took hafter hn
  refine h.2 horderly took (fun helse => ?_) hn
  rcases hafter with hbrace | hstart
  · rw [hbrace] at helse
    cases helse
  · exact absurd helse hstart.2

/-- **A block is read as its tree.** -/
theorem block_answers {m n : Nat} {own : Option Span} {cs : List Tree}
    (row : Row AnsweredStatement (Kind.block.phrase (.replicate m (.statement false))) ts own cs)
    (horderly : Orderly c.rest) (took : Took c ts c') (hn : 16 * ts.length ≤ n) :
    block n c = .ok (.node ⟨.block, hull ts, own, false, none⟩ cs, c') := by
  obtain ⟨brace, _, rfl, hbrace, row₁⟩ := row.word_inv
  obtain ⟨us, _, own₁, _, ds, _, rfl, rfl, rfl, series, row₂⟩ := row₁.append_inv
  obtain ⟨close, _, rfl, hclose, row₃⟩ := row₂.word_inv
  obtain ⟨rfl, rfl, rfl⟩ := row₃.nil_inv
  obtain ⟨c₁, took₁, tookRest⟩ := took.split [brace]
  obtain ⟨c₂, took₂, took₃⟩ := tookRest.split _
  simp only [List.length_cons, List.length_append, List.length_nil] at hn
  obtain ⟨n, rfl⟩ : ∃ n', n = n' + 1 := ⟨n - 1, by omega⟩
  have hbraceKind : brace.kind = .mark .openBrace := congrArg Lexeme.kind hbrace
  have hcloseKind : close.kind = .mark .closeBrace := congrArg Lexeme.kind hclose
  obtain ⟨real, rfl, rfl⟩ := Took.one_iff.mp took₃
  obtain ⟨hread, rfl⟩ := statements_answers series (took₁.orderly horderly) took₂ hcloseKind
    (n := n) (by omega)
  rw [block, braced, bind_eq (mark_ok.mpr ⟨hbraceKind, took₁⟩), bind_eq hread, discard_take_bind]
  simpa using nodeFrom_eq took

/-- What starts as an expression is read as an expression statement. -/
theorem statement_expression {n : Nat} (h : startsExpression c.next.kind = true) :
    statement (n + 1) c = expressionStatement n c.next.span.start c := by
  rw [statement, peek_bind]
  revert h
  cases c.next.kind with
  | mark m => cases m <;> first | exact fun _ => rfl | (intro h; cases h)
  | keyword k => cases k <;> first | exact fun _ => rfl | (intro h; cases h)
  | _ => exact fun _ => rfl

/-- What starts as a type is read as a declaration. -/
theorem statement_declaration {n : Nat} {type : TypeName}
    (h : valueType? c.next.kind = some type) :
    statement (n + 1) c = localDeclaration n c.next.span.start type c := by
  obtain ⟨hkind, hvalue⟩ := valueType?_eq_some.mp h
  rw [hkind] at h
  rw [statement, peek_bind, hkind]
  dsimp only
  rw [h]

/-- Without an `else` there is no second branch. -/
theorem elseClause_none {branch : Parser Tree} (h : c.next.kind ≠ .keyword .elseWord) :
    elseClause branch c = .ok ([], c) := by
  rw [elseClause, peek_bind, if_neg h]
  rfl

/-- **A declaration is read as its tree.** -/
theorem localDeclaration_answers {n : Nat} {own : Option Span} {cs : List Tree}
    (row : Row AnsweredStatement (Kind.localDeclaration.phrase [.variableDeclaration]) ts own cs)
    (horderly : Orderly c.rest) (took : Took c ts c') (hn : 16 * ts.length + 5 ≤ n) :
    statement n c = .ok (.node ⟨.localDeclaration, hull ts, own, false, none⟩ cs, c') := by
  obtain ⟨us, _, declaration, _, rfl, rfl, ⟨hdeclaration, -⟩, row₁⟩ := row.child_inv
  obtain ⟨last, _, rfl, hlast, row₂⟩ := row₁.word_inv
  obtain ⟨rfl, rfl, rfl⟩ := row₂.nil_inv
  obtain ⟨c₁, took₁, took₂⟩ := took.split _
  rw [List.length_append, List.length_singleton] at hn
  obtain ⟨n, rfl⟩ : ∃ n', n = n' + 1 := ⟨n - 1, by omega⟩
  have hlastKind : last.kind = .mark .semicolon := congrArg Lexeme.kind hlast
  have hnext : c₁.next.kind = .mark .semicolon := by rw [(Took.one_iff.mp took₂).2.1, hlastKind]
  obtain ⟨type, htype, hread⟩ := variableDeclaration_answers hdeclaration horderly took₁ hnext
    (n := n) (by omega)
  rw [statement_declaration htype, localDeclaration, discard_take_bind, bind_eq hread,
    discard_bind_eq (mark_ok.mpr ⟨hlastKind, took₂⟩)]
  exact nodeFrom_next took (by simp)

/-- **An expression statement is read as its tree.** -/
theorem expressionStatement_answers {n : Nat} {own : Option Span} {cs : List Tree}
    (row : Row AnsweredStatement (Kind.expressionStatement.phrase [.expression 0]) ts own cs)
    (horderly : Orderly c.rest) (took : Took c ts c') (hn : 16 * ts.length + 5 ≤ n) :
    statement n c = .ok (.node ⟨.expressionStatement, hull ts, own, false, none⟩ cs, c') := by
  obtain ⟨us, _, value, _, rfl, rfl, ⟨hvalue, -⟩, row₁⟩ := row.child_inv
  obtain ⟨last, _, rfl, hlast, row₂⟩ := row₁.word_inv
  obtain ⟨rfl, rfl, rfl⟩ := row₂.nil_inv
  obtain ⟨c₁, took₁, took₂⟩ := took.split _
  rw [List.length_append, List.length_singleton] at hn
  obtain ⟨n, rfl⟩ : ∃ n', n = n' + 1 := ⟨n - 1, by omega⟩
  have hlastKind : last.kind = .mark .semicolon := congrArg Lexeme.kind hlast
  obtain ⟨hread, hmark⟩ :=
    expression_ends hvalue horderly took₁ took₂ hlastKind (.inr rfl) (n := n) (by omega)
  have hstart : startsExpression c.next.kind = true := by
    obtain ⟨u, us, rfl, hu⟩ := exists_start hvalue
    rwa [(Took.cons_iff.mp took₁).2.1]
  rw [statement_expression hstart, expressionStatement, bind_eq hread, discard_bind_eq hmark]
  exact nodeFrom_next took (by simp)

/-- An empty statement is read as its tree. -/
theorem emptyStatement_answers {n : Nat} {own : Option Span} {cs : List Tree}
    (row : Row AnsweredStatement (Kind.emptyStatement.phrase []) ts own cs)
    (took : Took c ts c') (hn : 16 * ts.length + 5 ≤ n) :
    statement n c = .ok (.node ⟨.emptyStatement, hull ts, own, false, none⟩ cs, c') := by
  obtain ⟨word, _, rfl, hword, row₁⟩ := row.word_inv
  obtain ⟨rfl, rfl, rfl⟩ := row₁.nil_inv
  obtain ⟨n, rfl⟩ : ∃ n', n = n' + 1 := ⟨n - 1, by omega⟩
  obtain ⟨real, rfl, rfl⟩ := Took.one_iff.mp took
  have hkind : c.next.kind = .mark .semicolon := congrArg Lexeme.kind hword
  rw [statement, peek_bind, hkind]
  simp only [emptyStatement, discard_take_bind]
  exact nodeFrom_eq took

/-- A return without a value is read as its tree. -/
theorem returnNothing_answers {n : Nat} {own : Option Span} {cs : List Tree}
    (row : Row AnsweredStatement (Kind.returnStatement.phrase []) ts own cs)
    (took : Took c ts c') (hn : 16 * ts.length + 5 ≤ n) :
    statement n c = .ok (.node ⟨.returnStatement, hull ts, own, false, none⟩ cs, c') := by
  obtain ⟨word, _, rfl, hword, row₁⟩ := row.word_inv
  obtain ⟨last, _, rfl, hlast, row₂⟩ := row₁.word_inv
  obtain ⟨rfl, rfl, rfl⟩ := row₂.nil_inv
  obtain ⟨n, rfl⟩ : ∃ n', n = n' + 1 := ⟨n - 1, by omega⟩
  obtain ⟨real, rfl, took₁⟩ := Took.cons_iff.mp took
  have hkind : c.next.kind = .keyword .returnWord := congrArg Lexeme.kind hword
  have hlastKind : last.kind = .mark .semicolon := congrArg Lexeme.kind hlast
  have hnext : c.step.next.kind = .mark .semicolon := by
    rw [(Took.one_iff.mp took₁).2.1, hlastKind]
  rw [statement, peek_bind, hkind]
  simp only [returnStatement, discard_take_bind]
  rw [bind_eq (unlessAt_none hnext), discard_bind_eq (mark_ok.mpr ⟨hlastKind, took₁⟩)]
  exact nodeFrom_eq took

/-- **A return is read as its tree.** -/
theorem returnValue_answers {n : Nat} {own : Option Span} {cs : List Tree}
    (row : Row AnsweredStatement (Kind.returnStatement.phrase [.expression 0]) ts own cs)
    (horderly : Orderly c.rest) (took : Took c ts c') (hn : 16 * ts.length + 5 ≤ n) :
    statement n c = .ok (.node ⟨.returnStatement, hull ts, own, false, none⟩ cs, c') := by
  obtain ⟨word, _, rfl, hword, row₁⟩ := row.word_inv
  obtain ⟨us, _, value, _, rfl, rfl, ⟨hvalue, -⟩, row₂⟩ := row₁.child_inv
  obtain ⟨last, _, rfl, hlast, row₃⟩ := row₂.word_inv
  obtain ⟨rfl, rfl, rfl⟩ := row₃.nil_inv
  simp only [List.length_cons, List.length_append, List.length_nil] at hn
  obtain ⟨n, rfl⟩ : ∃ n', n = n' + 1 := ⟨n - 1, by omega⟩
  obtain ⟨real, rfl, tookRest⟩ := Took.cons_iff.mp took
  obtain ⟨c₁, took₁, took₂⟩ := tookRest.split _
  have hkind : c.next.kind = .keyword .returnWord := congrArg Lexeme.kind hword
  have hlastKind : last.kind = .mark .semicolon := congrArg Lexeme.kind hlast
  obtain ⟨hread, hmark⟩ := expression_ends hvalue ((took_next rfl real).orderly horderly) took₁
    took₂ hlastKind (.inr rfl) (n := n) (by omega)
  have hnext : c.step.next.kind ≠ .mark .semicolon := by
    obtain ⟨u, us, rfl, hu⟩ := exists_start hvalue
    rw [(Took.cons_iff.mp took₁).2.1]
    rintro h
    rw [h] at hu
    cases hu
  have hvalues :
      unlessAt (.mark .semicolon) (return [← expression n]) c.step = .ok ([value], c₁) := by
    rw [unlessAt_some hnext, bind_eq hread]
    rfl
  rw [statement, peek_bind, hkind]
  simp only [returnStatement, discard_take_bind]
  rw [bind_eq hvalues, discard_bind_eq hmark]
  exact nodeFrom_eq took

/-- **A `while` is read as its tree.** -/
theorem whileStatement_answers {closed : Bool} {n : Nat} {own : Option Span} {cs : List Tree}
    (row : Row AnsweredStatement
      (Kind.whileStatement.phrase [.expression 0, .statement closed]) ts own cs)
    (horderly : Orderly c.rest) (took : Took c ts c')
    (hclosed : c'.next.kind = .keyword .elseWord → closed = true) (hn : 16 * ts.length + 5 ≤ n) :
    statement n c = .ok (.node ⟨.whileStatement, hull ts, own, false, none⟩ cs, c') := by
  obtain ⟨word, _, rfl, hword, row₁⟩ := row.word_inv
  obtain ⟨open_, _, rfl, hopen, row₂⟩ := row₁.word_inv
  obtain ⟨us, _, cond, _, rfl, rfl, ⟨hcond, -⟩, row₃⟩ := row₂.child_inv
  obtain ⟨close, _, rfl, hclose, row₄⟩ := row₃.word_inv
  obtain ⟨vs, _, body, _, rfl, rfl, ⟨-, hbody⟩, row₅⟩ := row₄.child_inv
  obtain ⟨rfl, rfl, rfl⟩ := row₅.nil_inv
  rw [List.append_nil] at took hn ⊢
  simp only [List.length_cons, List.length_append] at hn
  obtain ⟨n, rfl⟩ : ∃ n', n = n' + 1 := ⟨n - 1, by omega⟩
  obtain ⟨real, rfl, tookRest⟩ := Took.cons_iff.mp took
  obtain ⟨c₁, took₁, tookRest⟩ := tookRest.split [open_]
  obtain ⟨c₂, took₂, tookRest⟩ := tookRest.split _
  obtain ⟨c₃, took₃, took₄⟩ := tookRest.split [close]
  have hkind : c.next.kind = .keyword .whileWord := congrArg Lexeme.kind hword
  have horderly₁ := (took_next rfl real).orderly horderly
  have hcondition : condition n c.step = .ok (cond, c₃) :=
    condition_answers horderly₁ took₁ hopen hcond took₂ took₃ hclose (by omega)
  have hread : statement n c₃ = .ok (body, c') :=
    hbody (took₃.orderly (took₂.orderly (took₁.orderly horderly₁))) took₄ hclosed (by omega)
  rw [statement, peek_bind, hkind]
  simp only [whileStatement, discard_take_bind]
  rw [bind_eq hcondition, bind_eq hread]
  exact nodeFrom_eq took

/-- What an `if` begins with: the word, the condition in parentheses and the branch. -/
theorem ifStatement_answers {closed : Bool} {n : Nat} {own : Option Span} {ps : List (Part Symbol)}
    {cs : List Tree}
    (row : Row AnsweredStatement (.word (.keyword .ifWord) :: .word (.mark .openParen) ::
      .child (.expression 0) :: .word (.mark .closeParen) :: .child (.statement closed) :: ps)
      ts own cs)
    (horderly : Orderly c.rest) (took : Took c ts c') (hn : 16 * ts.length + 5 ≤ n + 1)
    (hps : ∀ ⦃us own cs c₁⦄, Row AnsweredStatement ps us own cs → Orderly c₁.rest →
      Took c₁ us c' → 16 * us.length ≤ n → own = none ∧
        (c₁.next.kind = .keyword .elseWord → closed = true) ∧
        elseClause (statement n) c₁ = .ok (cs, c')) :
    statement (n + 1) c = .ok (.node ⟨.ifStatement, hull ts, own, false, none⟩ cs, c') := by
  obtain ⟨word, _, rfl, hword, row₁⟩ := row.word_inv
  obtain ⟨open_, _, rfl, hopen, row₂⟩ := row₁.word_inv
  obtain ⟨us, _, cond, _, rfl, rfl, ⟨hcond, -⟩, row₃⟩ := row₂.child_inv
  obtain ⟨close, _, rfl, hclose, row₄⟩ := row₃.word_inv
  obtain ⟨vs, ws, body, others, rfl, rfl, ⟨-, hbody⟩, row₅⟩ := row₄.child_inv
  simp only [List.length_cons, List.length_append] at hn
  obtain ⟨real, rfl, tookRest⟩ := Took.cons_iff.mp took
  obtain ⟨c₁, took₁, tookRest⟩ := tookRest.split [open_]
  obtain ⟨c₂, took₂, tookRest⟩ := tookRest.split _
  obtain ⟨c₃, took₃, tookRest⟩ := tookRest.split [close]
  obtain ⟨c₄, took₄, took₅⟩ := tookRest.split _
  have hkind : c.next.kind = .keyword .ifWord := congrArg Lexeme.kind hword
  have horderly₁ := (took_next rfl real).orderly horderly
  have horderly₃ := took₃.orderly (took₂.orderly (took₁.orderly horderly₁))
  obtain ⟨rfl, hclosed, helse⟩ := hps row₅ (took₄.orderly horderly₃) took₅ (by omega)
  have hcondition : condition n c.step = .ok (cond, c₃) :=
    condition_answers horderly₁ took₁ hopen hcond took₂ took₃ hclose (by omega)
  have hread : statement n c₃ = .ok (body, c₄) := hbody horderly₃ took₄ hclosed (by omega)
  rw [statement, peek_bind, hkind]
  simp only [ifStatement, discard_take_bind]
  rw [bind_eq hcondition, bind_eq hread, bind_eq helse]
  exact nodeFrom_eq took

/-- **The `else` of an `if` is read as its tree.** -/
theorem elseClause_answers {closed : Bool} {n : Nat} {own : Option Span} {cs : List Tree}
    (row : Row AnsweredStatement (Kind.elseClause.phrase [.statement closed]) ts own cs)
    (horderly : Orderly c.rest) (took : Took c ts c')
    (hclosed : c'.next.kind = .keyword .elseWord → closed = true) (hn : 16 * ts.length ≤ n) :
    elseClause (statement n) c =
      .ok ([.node ⟨.elseClause, hull ts, own, false, none⟩ cs], c') := by
  obtain ⟨word, _, rfl, hword, row₁⟩ := row.word_inv
  obtain ⟨us, _, body, _, rfl, rfl, ⟨-, hbody⟩, row₂⟩ := row₁.child_inv
  obtain ⟨rfl, rfl, rfl⟩ := row₂.nil_inv
  rw [List.append_nil] at took hn ⊢
  rw [List.length_cons] at hn
  obtain ⟨real, rfl, took₁⟩ := Took.cons_iff.mp took
  have hkind : c.next.kind = .keyword .elseWord := congrArg Lexeme.kind hword
  have hread : statement n c.step = .ok (body, c') :=
    hbody ((took_next rfl real).orderly horderly) took₁ hclosed (by omega)
  rw [elseClause, peek_bind, if_pos hkind, discard_take_bind, bind_eq hread,
    bind_eq (nodeFrom_eq took)]
  rfl

/-- What a `for` begins with is a declaration or an expression, `head`. -/
theorem forStatement_answers {closed : Bool} {head : Symbol}
    (hhead : head = .variableDeclaration ∨ head = .expression 0) {n : Nat} {own : Option Span}
    {cs : List Tree}
    (row : Row AnsweredStatement
      (Kind.forStatement.phrase [head, .expression 0, .expression 0, .statement closed]) ts own cs)
    (horderly : Orderly c.rest) (took : Took c ts c')
    (hclosed : c'.next.kind = .keyword .elseWord → closed = true) (hn : 16 * ts.length + 5 ≤ n) :
    statement n c = .ok (.node ⟨.forStatement, hull ts, own, false, none⟩ cs, c') := by
  obtain ⟨word, _, rfl, hword, row₁⟩ := row.word_inv
  obtain ⟨open_, _, rfl, hopen, row₂⟩ := row₁.word_inv
  obtain ⟨us, _, init, _, rfl, rfl, ⟨hinit, -⟩, row₃⟩ := row₂.child_inv
  obtain ⟨first, _, rfl, hfirst, row₄⟩ := row₃.word_inv
  obtain ⟨vs, _, cond, _, rfl, rfl, ⟨hcond, -⟩, row₅⟩ := row₄.child_inv
  obtain ⟨second, _, rfl, hsecond, row₆⟩ := row₅.word_inv
  obtain ⟨ws, _, step, _, rfl, rfl, ⟨hstep, -⟩, row₇⟩ := row₆.child_inv
  obtain ⟨close, _, rfl, hclose, row₈⟩ := row₇.word_inv
  obtain ⟨xs, _, body, _, rfl, rfl, ⟨-, hbody⟩, row₉⟩ := row₈.child_inv
  obtain ⟨rfl, rfl, rfl⟩ := row₉.nil_inv
  rw [List.append_nil] at took hn ⊢
  simp only [List.length_cons, List.length_append] at hn
  obtain ⟨n, rfl⟩ : ∃ n', n = n' + 1 := ⟨n - 1, by omega⟩
  obtain ⟨real, rfl, tookRest⟩ := Took.cons_iff.mp took
  obtain ⟨c₁, took₁, tookRest⟩ := tookRest.split [open_]
  obtain ⟨c₂, took₂, tookRest⟩ := tookRest.split _
  obtain ⟨c₃, took₃, tookRest⟩ := tookRest.split [first]
  obtain ⟨c₄, took₄, tookRest⟩ := tookRest.split _
  obtain ⟨c₅, took₅, tookRest⟩ := tookRest.split [second]
  obtain ⟨c₆, took₆, tookRest⟩ := tookRest.split _
  obtain ⟨c₇, took₇, took₈⟩ := tookRest.split [close]
  have hkind : c.next.kind = .keyword .forWord := congrArg Lexeme.kind hword
  have hopenKind : open_.kind = .mark .openParen := congrArg Lexeme.kind hopen
  have hfirstKind : first.kind = .mark .semicolon := congrArg Lexeme.kind hfirst
  have hsecondKind : second.kind = .mark .semicolon := congrArg Lexeme.kind hsecond
  have hcloseKind : close.kind = .mark .closeParen := congrArg Lexeme.kind hclose
  have hnext : c₂.next.kind = .mark .semicolon := by rw [(Took.one_iff.mp took₃).2.1, hfirstKind]
  have horderly₁ := took₁.orderly ((took_next rfl real).orderly horderly)
  have horderly₃ := took₃.orderly (took₂.orderly horderly₁)
  have horderly₅ := took₅.orderly (took₄.orderly horderly₃)
  have horderly₇ := took₇.orderly (took₆.orderly horderly₅)
  have hinitRead : forInit n c₁ = .ok (init, c₂) :=
    forInit_answers (by rcases hhead with rfl | rfl; exacts [.inl hinit, .inr hinit]) horderly₁
      took₂ hnext (by omega)
  obtain ⟨hcondRead, hsecondRead⟩ :=
    expression_ends hcond horderly₃ took₄ took₅ hsecondKind (.inr rfl) (n := n) (by omega)
  obtain ⟨hstepRead, hcloseRead⟩ :=
    expression_ends hstep horderly₅ took₆ took₇ hcloseKind (.inl rfl) (n := n) (by omega)
  have hread : statement n c₇ = .ok (body, c') := hbody horderly₇ took₈ hclosed (by omega)
  rw [statement, peek_bind, hkind]
  simp only [forStatement, discard_take_bind]
  rw [discard_bind_eq (mark_ok.mpr ⟨hopenKind, took₁⟩), bind_eq hinitRead,
    discard_bind_eq (mark_ok.mpr ⟨hfirstKind, took₃⟩), bind_eq hcondRead,
    discard_bind_eq hsecondRead, bind_eq hstepRead, discard_bind_eq hcloseRead, bind_eq hread]
  exact nodeFrom_eq took

/-- A block is read wherever a statement is. -/
theorem blockStatement_answers {m n : Nat} {own : Option Span} {cs : List Tree}
    (row : Row AnsweredStatement (Kind.block.phrase (.replicate m (.statement false))) ts own cs)
    (horderly : Orderly c.rest) (took : Took c ts c') (hn : 16 * ts.length + 5 ≤ n) :
    statement n c = .ok (.node ⟨.block, hull ts, own, false, none⟩ cs, c') := by
  obtain ⟨n, rfl⟩ : ∃ n', n = n' + 1 := ⟨n - 1, by omega⟩
  have hread := block_answers row horderly took (n := n) (by omega)
  obtain ⟨brace, _, rfl, hbrace, -⟩ := row.word_inv
  have hkind : brace.kind = .mark .openBrace := congrArg Lexeme.kind hbrace
  rw [statement, peek_bind, (Took.cons_iff.mp took).2.1, hkind]
  exact hread

/-- **Tokens that derive a statement** are read as it. -/
theorem answersStatement {s : Symbol} (h : Derives s ts t) : AnswersStatement s ts t := by
  refine h.inductionOn (motive := AnswersStatement) ?_
  intro s k ss ts own cs rule row
  cases rule with
  | body statements => exact fun n c c' horderly took hn => block_answers row horderly took hn
  | block closed statements =>
      exact fun n c c' horderly took _ hn => blockStatement_answers row horderly took hn
  | localDeclaration closed =>
      exact fun n c c' horderly took _ hn => localDeclaration_answers row horderly took hn
  | expressionStatement closed =>
      exact fun n c c' horderly took _ hn => expressionStatement_answers row horderly took hn
  | emptyStatement closed => exact fun n c c' _ took _ hn => emptyStatement_answers row took hn
  | returnNothing closed => exact fun n c c' _ took _ hn => returnNothing_answers row took hn
  | returnValue closed =>
      exact fun n c c' horderly took _ hn => returnValue_answers row horderly took hn
  | whileStatement closed =>
      exact fun n c c' horderly took hclosed hn =>
        whileStatement_answers row horderly took hclosed hn
  | forDeclaration closed =>
      exact fun n c c' horderly took hclosed hn =>
        forStatement_answers (.inl rfl) row horderly took hclosed hn
  | forExpression closed =>
      exact fun n c c' horderly took hclosed hn =>
        forStatement_answers (.inr rfl) row horderly took hclosed hn
  | elseClause closed =>
      exact fun n c c' horderly took hclosed hn => elseClause_answers row horderly took hclosed hn
  | ifThen =>
      intro n c c' horderly took hclosed hn
      obtain ⟨n, rfl⟩ : ∃ n', n = n' + 1 := ⟨n - 1, by omega⟩
      refine ifStatement_answers row horderly took hn ?_
      -- Nothing follows the branch, so the `else` that is looked for is not there.
      intro us own cs c₁ row₁ _ took₁ _
      obtain ⟨rfl, rfl, rfl⟩ := row₁.nil_inv
      obtain rfl := Took.nil_iff.mp took₁
      exact ⟨rfl, hclosed, elseClause_none fun helse => Bool.false_ne_true (hclosed helse)⟩
  | ifElse closed =>
      intro n c c' horderly took hclosed hn
      obtain ⟨n, rfl⟩ : ∃ n', n = n' + 1 := ⟨n - 1, by omega⟩
      refine ifStatement_answers row horderly took hn ?_
      intro us own cs c₁ row₁ horderly₁ took₁ hn
      obtain ⟨us, _, other, _, rfl, rfl, ⟨-, hother⟩, row₂⟩ := row₁.child_inv
      obtain ⟨rfl, rfl, rfl⟩ := row₂.nil_inv
      rw [List.append_nil] at took₁ hn
      exact ⟨rfl, fun _ => rfl, hother horderly₁ took₁ hclosed hn⟩
  | _ => trivial

end Parser

end SharpMutants
