import SharpMutants.Proofs.Reader

/-!
# What derives an expression is read as it

Tokens that derive an expression are read as that expression, if the token after
them does not go on with it and the bound on the depth is large enough for their
number.  The levels of binding strength build on each other: what is read as a
primary expression is read as an operand, and so on up to a whole expression.

Operators to the left are read in a loop, so the statement for a binary expression
is not about its own reader alone: reading from its first token leads to the loop
after its last one, with the expression as the left operand (`AnswersBinary`).  The
loop stops where no operator of the level comes.
-/

namespace SharpMutants

namespace Parser

variable {c c' : Cursor} {t : Tree} {ts : List Token}

/-- A parser that answers hands its answer to the next. -/
theorem bind_eq {α β : Type} {p : Parser α} {f : α → Parser β} {a : α} (h : p c = .ok (a, c')) :
    (p >>= f) c = f a c' := by
  show (p c >>= fun r => f r.1 r.2) = _
  rw [h]
  rfl

/-- A parser whose answer is dropped hands its place to the next. -/
theorem discard_bind_eq {α β : Type} {p : Parser α} {f : PUnit → Parser β} {a : α}
    (h : p c = .ok (a, c')) : (discard p >>= f) c = f ⟨⟩ c' :=
  bind_eq (discard_ok.mpr ⟨a, h⟩)

/-- A node from the first of the tokens taken to the last. -/
theorem nodeFrom_eq {c₀ : Cursor} {u : Token} {us : List Token} {k : Kind} {own : Option Span}
    {cs : List Tree} (took : Took c₀ (u :: us) c) :
    nodeFrom u.span.start k own cs c =
      .ok (.node ⟨k, hull (u :: us), own, false, none⟩ cs, c) := by
  rw [nodeFrom_ok, took.hull_eq]
  exact ⟨rfl, rfl⟩

/-- The same from the token that was next. -/
theorem nodeFrom_next {c₀ : Cursor} {k : Kind} {own : Option Span} {cs : List Tree}
    (took : Took c₀ ts c) (hne : ts ≠ []) :
    nodeFrom c₀.next.span.start k own cs c =
      .ok (.node ⟨k, hull ts, own, false, none⟩ cs, c) := by
  obtain ⟨u, us, rfl⟩ := List.exists_cons_of_ne_nil hne
  rw [(Took.cons_iff.mp took).2.1]
  exact nodeFrom_eq took

/-- The next token does not go on with a name. -/
def AfterName (c : Cursor) : Prop :=
  c.next.kind ≠ .mark .openParen ∧ c.next.kind ≠ .mark .dot

/-- The next token does not go on with an operand. -/
def AfterOperand (c : Cursor) : Prop :=
  AfterName c ∧ postfixOp? c.next.kind = none

/-- The next token closes an expression. -/
def AfterExpression (c : Cursor) : Prop :=
  c.next.kind = .mark .closeParen ∨ c.next.kind = .mark .semicolon ∨ c.next.kind = .mark .comma

/-- What may follow an expression may follow an operand. -/
theorem AfterExpression.operand (h : AfterExpression c) : AfterOperand c := by
  rcases h with h | h | h <;> exact ⟨⟨by rw [h]; nofun, by rw [h]; nofun⟩, by rw [h]; rfl⟩

/-- What may follow an expression ends every level of operators. -/
theorem AfterExpression.looser (h : AfterExpression c) (level : Nat) : Looser level c := by
  intro op hop
  rcases h with h | h | h <;> rw [h] at hop <;> cases op <;> cases hop

/-- What may follow an expression is no assignment operator. -/
theorem AfterExpression.assignOp?_eq_none (h : AfterExpression c) :
    assignOp? c.next.kind = none := by
  rcases h with h | h | h <;> rw [h] <;> rfl

/-- What begins a primary expression. -/
def startsPrimary (k : TokenKind) : Bool :=
  (literalKind? k).isSome || k == .identifier || k == .mark .openParen

/-! ## One level on another -/

/-- The tokens are read as a primary expression. -/
def AnswersPrimary (ts : List Token) (t : Tree) : Prop :=
  ∀ ⦃n : Nat⦄ ⦃c c' : Cursor⦄, Orderly c.rest → Took c ts c' → AfterName c' →
    16 * ts.length + 1 ≤ n → startsPrimary c.next.kind = true ∧ primary n c = .ok (t, c')

/-- The tokens are read as an operand of the loop of operators behind. -/
def AnswersOperand (ts : List Token) (t : Tree) : Prop :=
  ∀ ⦃n : Nat⦄ ⦃c c' : Cursor⦄, Orderly c.rest → Took c ts c' → AfterName c' →
    16 * ts.length + 1 ≤ n → startsPrimary c.next.kind = true ∧
      ∃ m, n ≤ m + 16 * ts.length ∧ (primary n >>= postfixTail n) c = postfixTail m t c'

/-- The tokens are read as an operand of a binary operator. -/
def AnswersUnary (ts : List Token) (t : Tree) : Prop :=
  ∀ ⦃n : Nat⦄ ⦃c c' : Cursor⦄, Orderly c.rest → Took c ts c' → AfterOperand c' →
    16 * ts.length + 2 ≤ n → unary n c = .ok (t, c')

/-- The tokens are read as a left operand of the loop of operators of any level up to `q`, if
no operator tighter than `q` comes. -/
def AnswersBinary (q : Nat) (ts : List Token) (t : Tree) : Prop :=
  ∀ ⦃n level : Nat⦄ ⦃c c' : Cursor⦄, level ≤ q → Orderly c.rest → Took c ts c' →
    AfterOperand c' → Looser (q + 1) c' → 16 * ts.length + 3 ≤ n →
    ∃ m, n ≤ m + 16 * ts.length ∧ binary n level c = binaryTail m level t c'

/-- The tokens are read as an expression. -/
def AnswersExpression (ts : List Token) (t : Tree) : Prop :=
  ∀ ⦃n : Nat⦄ ⦃c c' : Cursor⦄, Orderly c.rest → Took c ts c' → AfterExpression c' →
    16 * ts.length + 4 ≤ n → expression n c = .ok (t, c')

/-- A primary is an operand. -/
theorem AnswersPrimary.operand (h : AnswersPrimary ts t) : AnswersOperand ts t := by
  intro n c c' horderly took hafter hn
  obtain ⟨hstart, hprimary⟩ := h horderly took hafter hn
  exact ⟨hstart, n, Nat.le_add_right _ _, bind_eq hprimary⟩

/-- A postfix ends where no step follows. -/
theorem postfixTail_stop {m : Nat} (hm : 1 ≤ m) (hafter : AfterOperand c') :
    postfixTail m t c' = .ok (t, c') := by
  obtain ⟨m, rfl⟩ : ∃ m', m = m' + 1 := ⟨m - 1, by omega⟩
  rw [postfixTail, peek_bind, hafter.2]
  rfl

/-- An operand is a unary expression. -/
theorem AnswersOperand.unary (h : AnswersOperand ts t) : AnswersUnary ts t := by
  intro n c c' horderly took hafter hn
  obtain ⟨n, rfl⟩ : ∃ n', n = n' + 1 := ⟨n - 1, by omega⟩
  obtain ⟨hstart, m, hm, hloop⟩ := h horderly took hafter.1 (n := n) (by omega)
  have hprefix : prefixOp? c.next.kind = none := by
    revert hstart
    cases c.next.kind with
    | mark m => cases m <;> simp [startsPrimary, literalKind?, prefixOp?, Mark.prefixOp?]
    | _ => exact fun _ => rfl
  rw [Parser.unary, peek_bind, hprefix]
  exact hloop.trans (postfixTail_stop (by omega) hafter)

/-- A unary expression is a binary one of every level. -/
theorem AnswersUnary.binary {q : Nat} (h : AnswersUnary ts t) (hne : ts ≠ []) :
    AnswersBinary q ts t := by
  intro n level c c' _ horderly took hafter _ hn
  obtain ⟨n, rfl⟩ : ∃ n', n = n' + 1 := ⟨n - 1, by omega⟩
  have hlength := List.length_pos_iff.mpr hne
  rw [Parser.binary]
  exact ⟨n, by omega, bind_eq (h horderly took hafter (by omega))⟩

/-- A level of operators ends where a looser one follows. -/
theorem binaryTail_stop {m level : Nat} (hm : 1 ≤ m) (hlooser : Looser level c') :
    binaryTail m level t c' = .ok (t, c') := by
  obtain ⟨m, rfl⟩ : ∃ m', m = m' + 1 := ⟨m - 1, by omega⟩
  rw [binaryTail, peek_bind]
  cases hop : binaryOp? c'.next.kind with
  | none => rfl
  | some op =>
      have hlow := hlooser op (binaryOp?_eq_some.mp hop)
      dsimp only
      rw [if_pos hlow]
      rfl

/-- A binary expression is an expression. -/
theorem AnswersBinary.expression {q : Nat} (h : AnswersBinary q ts t) (hq : 1 ≤ q) :
    AnswersExpression ts t := by
  intro n c c' horderly took hafter hn
  obtain ⟨n, rfl⟩ : ∃ n', n = n' + 1 := ⟨n - 1, by omega⟩
  obtain ⟨m, hm, hloop⟩ :=
    h hq horderly took hafter.operand (hafter.looser _) (n := n) (by omega)
  rw [binaryTail_stop (by omega) (hafter.looser _)] at hloop
  rw [Parser.expression, bind_eq hloop, peek_bind, hafter.assignOp?_eq_none]
  rfl

/-- What the tokens of an expression of a level are read as. -/
structure AnswersLevel (level : Nat) (ts : List Token) (t : Tree) : Prop where
  primary : 9 ≤ level → AnswersPrimary ts t
  operand : 8 ≤ level → AnswersOperand ts t
  unary : 7 ≤ level → AnswersUnary ts t
  binary : 1 ≤ level → ∃ q, level ≤ q ∧ AnswersBinary q ts t
  expression : AnswersExpression ts t

/-- A unary expression is one of each level up to its own. -/
theorem AnswersUnary.level {level : Nat} (h : AnswersUnary ts t) (hne : ts ≠ [])
    (hlevel : level ≤ 7) : AnswersLevel level ts t where
  primary := by omega
  operand := by omega
  unary := fun _ => h
  binary := fun _ => ⟨7, hlevel, h.binary hne⟩
  expression := (h.binary (q := 7) hne).expression (by omega)

/-- An operand is an expression of each level up to its own. -/
theorem AnswersOperand.level {level : Nat} (h : AnswersOperand ts t) (hne : ts ≠ [])
    (hlevel : level ≤ 8) : AnswersLevel level ts t where
  primary := by omega
  operand := fun _ => h
  unary := fun _ => h.unary
  binary := fun _ => ⟨8, hlevel, h.unary.binary hne⟩
  expression := (h.unary.binary (q := 8) hne).expression (by omega)

/-- A primary is an expression of each level up to its own. -/
theorem AnswersPrimary.level {level : Nat} (h : AnswersPrimary ts t) (hne : ts ≠ [])
    (hlevel : level ≤ 9) : AnswersLevel level ts t where
  primary := fun _ => h
  operand := fun _ => h.operand
  unary := fun _ => h.operand.unary
  binary := fun _ => ⟨9, hlevel, h.operand.unary.binary hne⟩
  expression := (h.operand.unary.binary (q := 9) hne).expression (by omega)

/-- A binary expression is one of each level up to that of its operator. -/
theorem AnswersBinary.level {level q : Nat} (h : AnswersBinary q ts t) (hlevel : level ≤ q)
    (hq : 1 ≤ q) (hq' : q ≤ 6) : AnswersLevel level ts t where
  primary := by omega
  operand := by omega
  unary := by omega
  binary := fun _ => ⟨q, hlevel, h⟩
  expression := h.expression hq

/-- An assignment is an expression of the lowest level. -/
theorem AnswersExpression.level (h : AnswersExpression ts t) : AnswersLevel 0 ts t where
  primary := by omega
  operand := by omega
  unary := by omega
  binary := by omega
  expression := h

/-! ## The expressions one by one -/

/-- What the tokens of a child are, and what they are read as. -/
def Answered (s : Symbol) (ts : List Token) (t : Tree) : Prop :=
  Derives s ts t ∧ ∀ level, s = .expression level → AnswersLevel level ts t

/-- The name in a token is that of its lexeme. -/
theorem nameOf_eq {u : Token} {name : String} (h : u.lexeme = .name name.toList) :
    nameOf u = name := by
  have htext : u.text = name.toList := congrArg Lexeme.text h
  rw [nameOf, htext, String.ofList_toList]

/-- **An identifier is read as its tree.** -/
theorem identifier_answers {name : String} {own : Option Span} {cs : List Tree}
    (row : Row Answered ((Kind.identifier name).phrase []) ts own cs) :
    AnswersPrimary ts (.node ⟨.identifier name, hull ts, own, false, none⟩ cs) := by
  obtain ⟨u, us, _, rfl, rfl, hu, row⟩ := row.own_inv
  obtain ⟨rfl, -, rfl⟩ := row.nil_inv
  intro n c c' horderly took hafter hn
  obtain ⟨real, rfl, rfl⟩ := Took.one_iff.mp took
  obtain ⟨n, rfl⟩ : ∃ n', n = n' + 1 := ⟨n - 1, by simp at hn; omega⟩
  have hkind : c.next.kind = .identifier := congrArg Lexeme.kind hu
  refine ⟨by rw [hkind]; rfl, ?_⟩
  have hliteral : literalKind? c.next.kind = none := by rw [hkind]; rfl
  rw [primary, peek_bind, hliteral]
  dsimp only
  rw [if_neg (by rw [hkind]; nofun), if_pos hkind, nameOrCall, discard_take_bind, at?_bind,
    at?_bind, if_neg (by simpa [AfterName] using hafter), nameOf_eq hu]
  rfl

/-- **A literal is read as its tree.** -/
theorem literal_answers {value : Literal} {own : Option Span} {cs : List Tree}
    (row : Row Answered ((Kind.literal value).phrase []) ts own cs) :
    AnswersPrimary ts (.node ⟨.literal value, hull ts, own, false, none⟩ cs) := by
  obtain ⟨u, us, _, rfl, rfl, hu, row⟩ := row.own_inv
  obtain ⟨rfl, -, rfl⟩ := row.nil_inv
  intro n c c' horderly took hafter hn
  obtain ⟨real, rfl, rfl⟩ := Took.one_iff.mp took
  obtain ⟨n, rfl⟩ : ∃ n', n = n' + 1 := ⟨n - 1, by simp at hn; omega⟩
  have hkind : c.next.kind = value.tokenKind := congrArg Lexeme.kind hu
  have htext : nameOf c.next = value.text := by
    have htext : c.next.text = value.text.toList := congrArg Lexeme.text hu
    rw [nameOf, htext, String.ofList_toList]
  have hliteral : literalKind? c.next.kind = some value.kind := by
    rw [hkind, Literal.tokenKind]
    cases value.kind with
    | bool => dsimp only; split <;> rfl
    | _ => rfl
  refine ⟨by rw [startsPrimary, hliteral]; rfl, ?_⟩
  rw [primary, peek_bind, hliteral]
  simp only [literal, discard_take_bind, htext]
  rfl

/-- **Parentheses are read as their tree.** -/
theorem parenthesized_answers {own : Option Span} {cs : List Tree}
    (row : Row Answered (Kind.parenthesized.phrase [.expression 0]) ts own cs) :
    AnswersPrimary ts (.node ⟨.parenthesized, hull ts, own, false, none⟩ cs) := by
  obtain ⟨u, us, rfl, hu, row⟩ := row.word_inv
  obtain ⟨vs, ws, inner, _, rfl, rfl, ⟨-, hinner⟩, row⟩ := row.child_inv
  obtain ⟨v, _, rfl, hv, row⟩ := row.word_inv
  obtain ⟨rfl, rfl, rfl⟩ := row.nil_inv
  intro n c c' horderly took hafter hn
  obtain ⟨real, rfl, tookRest⟩ := Took.cons_iff.mp took
  obtain ⟨c₁, took₁, took₂⟩ := tookRest.split _
  obtain ⟨n, rfl⟩ : ∃ n', n = n' + 1 := ⟨n - 1, by simp at hn; omega⟩
  have hkind : c.next.kind = .mark .openParen := congrArg Lexeme.kind hu
  have hclose : v.kind = .mark .closeParen := congrArg Lexeme.kind hv
  have hliteral : literalKind? c.next.kind = none := by rw [hkind]; rfl
  have horderly₁ : Orderly c.step.rest := (took_next rfl real).orderly horderly
  have hafter₁ : AfterExpression c₁ := .inl (by rw [(Took.one_iff.mp took₂).2.1, hclose])
  have hvalue : expression n c.step = .ok (inner, c₁) :=
    (hinner 0 rfl).expression horderly₁ took₁ hafter₁ (by simp at hn; omega)
  refine ⟨by rw [hkind]; rfl, ?_⟩
  rw [primary, peek_bind, hliteral]
  dsimp only
  rw [if_pos hkind, parenthesized, discard_take_bind, bind_eq hvalue,
    discard_bind_eq (mark_ok.mpr ⟨hclose, took₂⟩)]
  exact nodeFrom_eq took

/-- The segments of a dotted name after its first one. -/
theorem dottedName_eq {n : Nat} {name : String} {segments : List Text}
    (took : Took c ts c') (hsegments : ts.map Token.lexeme =
      segments.flatMap fun segment => [Lexeme.mark .dot, .name segment])
    (hafter : c'.next.kind ≠ .mark .dot) (hn : ts.length + 1 ≤ n) :
    dottedName n name c =
      .ok (segments.foldl (fun name segment => name ++ "." ++ String.ofList segment) name, c') := by
  induction segments generalizing c ts n name with
  | nil =>
      obtain rfl : ts = [] := by simpa using hsegments
      obtain rfl := Took.nil_iff.mp took
      obtain ⟨n, rfl⟩ : ∃ n', n = n' + 1 := ⟨n - 1, by omega⟩
      rw [dottedName, bind_eq ((accept_ok (by nofun)).mpr (.inr ⟨rfl, hafter, rfl⟩))]
      rfl
  | cons segment segments ih =>
      obtain ⟨dot, us, rfl, hdot, hrest⟩ := List.map_eq_cons_iff.mp hsegments
      obtain ⟨word, vs, rfl, hword, hrest⟩ := List.map_eq_cons_iff.mp hrest
      obtain ⟨n, rfl⟩ : ∃ n', n = n' + 1 := ⟨n - 1, by omega⟩
      obtain ⟨c₁, took₁, tookRest⟩ := took.split [dot]
      obtain ⟨c₂, took₂, took₃⟩ := tookRest.split [word]
      have hdotKind : dot.kind = .mark .dot := congrArg Lexeme.kind hdot
      have hwordKind : word.kind = .identifier := congrArg Lexeme.kind hword
      have hwordText : word.text = segment := congrArg Lexeme.text hword
      rw [dottedName, bind_eq ((accept_ok (by nofun)).mpr (.inl ⟨rfl, dot, hdotKind, took₁⟩)),
        if_pos rfl, bind_eq (identifier_ok.mpr ⟨hwordKind, took₂⟩)]
      rw [ih took₃ hrest (by simp at hn; omega), List.foldl_cons, nameOf, hwordText]

/-! ## Lists with commas -/

/-- A list ends where no comma follows. -/
theorem andMore_last {first : Tree} {more : Parser (List Tree)}
    (hafter : c.next.kind ≠ .mark .comma) : andMore first more c = .ok ([first], c) := by
  rw [andMore, bind_eq ((accept_ok (by nofun)).mpr (.inr ⟨rfl, hafter, rfl⟩))]
  rfl

/-- A list goes on behind a comma. -/
theorem andMore_cons {first : Tree} {more : Parser (List Tree)} {comma : Token} {c₁ : Cursor}
    {cs : List Tree} (took : Took c [comma] c₁) (hcomma : comma.kind = .mark .comma)
    (hmore : more c₁ = .ok (cs, c')) : andMore first more c = .ok (first :: cs, c') := by
  rw [andMore, bind_eq ((accept_ok (by nofun)).mpr (.inl ⟨rfl, comma, hcomma, took⟩)), if_pos rfl,
    bind_eq hmore]
  rfl

/-- A list with commas is read, if its elements are and a mark that closes it comes next. -/
theorem commas_answers {R : Symbol → List Token → Tree → Prop} {s : Symbol}
    {p : Nat → Parser (List Tree)} (close : Mark) (hclose : close ≠ .comma)
    (helement : ∀ ⦃us t n c c'⦄, R s us t → Orderly c.rest → Took c us c' →
      (c'.next.kind = .mark .comma ∨ c'.next.kind = .mark close) → 16 * us.length + 4 ≤ n →
      p (n + 1) c = andMore t (p n) c')
    {m n : Nat} {own : Option Span} {cs : List Tree}
    (row : Row R (Part.commas (.replicate (m + 1) s)) ts own cs) (horderly : Orderly c.rest)
    (took : Took c ts c') (hafter : c'.next.kind = .mark close) (hn : 16 * ts.length + 5 ≤ n) :
    p n c = .ok (cs, c') ∧ own = none := by
  obtain ⟨n, rfl⟩ : ∃ n', n = n' + 1 := ⟨n - 1, by omega⟩
  induction m generalizing n c ts cs with
  | zero =>
      obtain ⟨us, _, t, _, rfl, rfl, here, row⟩ := row.child_inv
      obtain ⟨rfl, rfl, rfl⟩ := row.nil_inv
      rw [List.append_nil] at took hn
      rw [helement here horderly took (.inr hafter) (by omega)]
      exact ⟨andMore_last (by rw [hafter]; simpa using hclose), rfl⟩
  | succ m ih =>
      obtain ⟨us, _, t, ds, rfl, rfl, here, row⟩ := row.child_inv
      obtain ⟨comma, vs, rfl, hcomma, row⟩ := row.word_inv
      obtain ⟨c₁, took₁, tookRest⟩ := took.split _
      obtain ⟨c₂, took₂, took₃⟩ := tookRest.split [comma]
      have hkind : comma.kind = .mark .comma := congrArg Lexeme.kind hcomma
      have hnext : c₁.next.kind = .mark .comma := by rw [(Took.one_iff.mp took₂).2.1, hkind]
      rw [List.length_append, List.length_cons] at hn
      obtain ⟨n, rfl⟩ : ∃ n', n = n' + 1 := ⟨n - 1, by omega⟩
      obtain ⟨hmore, hown⟩ := ih row (took₂.orderly (took₁.orderly horderly)) took₃ n (by omega)
      rw [helement here horderly took₁ (.inl hnext) (by omega)]
      exact ⟨andMore_cons took₂ hkind hmore, hown⟩

/-- A list is empty where it ends at once. -/
theorem unlessAt_none {k : TokenKind} {elements : Parser (List Tree)} (h : c.next.kind = k) :
    unlessAt k elements c = .ok ([], c) := by
  rw [unlessAt, at?_bind, if_pos (by simpa using h)]
  rfl

/-- A list has elements where it does not end at once. -/
theorem unlessAt_some {k : TokenKind} {elements : Parser (List Tree)} (h : c.next.kind ≠ k) :
    unlessAt k elements c = elements c := by
  rw [unlessAt, at?_bind, if_neg (by simpa using h)]

/-- A list with commas may be without elements, if no element begins with the mark that closes
it. -/
theorem elements_answers {R : Symbol → List Token → Tree → Prop} {s : Symbol}
    {p : Nat → Parser (List Tree)} {close : Mark} (hclose : close ≠ .comma)
    (hstart : ∀ ⦃us t⦄, R s us t → ∃ v vs, us = v :: vs ∧ v.kind ≠ .mark close)
    (helement : ∀ ⦃us t n c c'⦄, R s us t → Orderly c.rest → Took c us c' →
      (c'.next.kind = .mark .comma ∨ c'.next.kind = .mark close) → 16 * us.length + 4 ≤ n →
      p (n + 1) c = andMore t (p n) c')
    {m n : Nat} {own : Option Span} {cs : List Tree}
    (row : Row R (Part.commas (.replicate m s)) ts own cs) (horderly : Orderly c.rest)
    (took : Took c ts c') (hafter : c'.next.kind = .mark close) (hn : 16 * ts.length + 5 ≤ n) :
    unlessAt (.mark close) (p n) c = .ok (cs, c') ∧ own = none := by
  cases m with
  | zero =>
      obtain ⟨rfl, rfl, rfl⟩ := row.nil_inv
      obtain rfl := Took.nil_iff.mp took
      exact ⟨unlessAt_none hafter, rfl⟩
  | succ m =>
      have hopen : c.next.kind ≠ .mark close := by
        obtain ⟨u, us, rfl, hu⟩ : ∃ u us, ts = u :: us ∧ u.kind ≠ .mark close := by
          rw [List.replicate_succ] at row
          cases m <;>
          · obtain ⟨us, vs, _, _, rfl, -, here, -⟩ := row.child_inv
            obtain ⟨u, us, rfl, hu⟩ := hstart here
            exact ⟨u, us ++ vs, rfl, hu⟩
        rwa [(Took.cons_iff.mp took).2.1]
      rw [unlessAt_some hopen]
      exact commas_answers close hclose helement row horderly took hafter hn

/-- What begins an expression. -/
def startsExpression (k : TokenKind) : Bool :=
  startsPrimary k || (prefixOp? k).isSome

/-- An expression begins with a token that begins expressions. -/
theorem exists_start {level : Nat} (h : Derives (.expression level) ts t) :
    ∃ u us, ts = u :: us ∧ startsExpression u.kind = true := by
  refine h.inductionOn (motive := fun s ts _ => ∀ level, s = .expression level →
    ∃ u us, ts = u :: us ∧ startsExpression u.kind = true) ?_ level rfl
  clear h
  rintro s k ss ts own cs rule row level rfl
  cases rule with
  | assignment op =>
      obtain ⟨us, vs, _, _, rfl, rfl, ⟨-, ih⟩, row⟩ := row.child_inv
      obtain ⟨u, us, rfl, hu⟩ := ih 1 rfl
      exact ⟨u, us ++ vs, rfl, hu⟩
  | binary op reached =>
      obtain ⟨us, vs, _, _, rfl, rfl, ⟨-, ih⟩, row⟩ := row.child_inv
      obtain ⟨u, us, rfl, hu⟩ := ih _ rfl
      exact ⟨u, us ++ vs, rfl, hu⟩
  | prefixUnary op reached =>
      obtain ⟨u, us, _, rfl, rfl, hu, row⟩ := row.own_inv
      have hkind : u.kind = .mark op.mark := congrArg Lexeme.kind hu
      exact ⟨u, us, rfl, by rw [hkind]; cases op <;> rfl⟩
  | postfixUnary step reached =>
      obtain ⟨us, vs, _, _, rfl, rfl, ⟨-, ih⟩, row⟩ := row.child_inv
      obtain ⟨u, us, rfl, hu⟩ := ih 8 rfl
      exact ⟨u, us ++ vs, rfl, hu⟩
  | identifier name reached =>
      obtain ⟨u, us, _, rfl, rfl, hu, row⟩ := row.own_inv
      have hkind : u.kind = .identifier := congrArg Lexeme.kind hu
      exact ⟨u, us, rfl, by rw [hkind]; rfl⟩
  | literal value reached =>
      obtain ⟨u, us, _, rfl, rfl, hu, row⟩ := row.own_inv
      have hkind : u.kind = value.tokenKind := congrArg Lexeme.kind hu
      refine ⟨u, us, rfl, ?_⟩
      rw [hkind, Literal.tokenKind]
      cases value.kind with
      | bool => dsimp only; split <;> rfl
      | _ => rfl
  | parenthesized reached =>
      obtain ⟨u, us, rfl, hu, row⟩ := row.word_inv
      have hkind : u.kind = .mark .openParen := congrArg Lexeme.kind hu
      exact ⟨u, us, rfl, by rw [hkind]; rfl⟩
  | invocation callee args reached =>
      obtain ⟨us, vs, _, _, _, _, rfl, rfl, rfl, words, -⟩ := row.append_inv
      obtain ⟨hus, -, -⟩ := words.words_inv
      obtain ⟨first, segments, hdotted, -⟩ := Lexeme.exists_segments callee
      rw [hdotted] at hus
      obtain ⟨u, us, rfl, hu, -⟩ := List.map_eq_cons_iff.mp hus
      have hkind : u.kind = .identifier := congrArg Lexeme.kind hu
      exact ⟨u, us ++ vs, rfl, by rw [hkind]; rfl⟩

/-- The arguments of a call, with the token that closes them. -/
theorem arguments_answers {args n : Nat} {own : Option Span} {cs : List Tree}
    (row : Row Answered (Part.commas (.replicate args (.expression 0))) ts own cs)
    (horderly : Orderly c.rest) (took : Took c ts c')
    (hafter : c'.next.kind = .mark .closeParen) (hn : 16 * ts.length + 5 ≤ n) :
    unlessAt (.mark .closeParen) (arguments n) c = .ok (cs, c') ∧ own = none := by
  refine elements_answers (by nofun) ?_ ?_ row horderly took hafter hn
  · intro us t here
    obtain ⟨u, us, rfl, hu⟩ := exists_start here.1
    refine ⟨u, us, rfl, fun hkind => ?_⟩
    rw [hkind] at hu
    cases hu
  · intro us t n c c' here horderly took hafter hn
    have hexpression : AfterExpression c' := by
      rcases hafter with h | h
      · exact .inr (.inr h)
      · exact .inl h
    rw [arguments, bind_eq ((here.2 0 rfl).expression horderly took hexpression hn)]

/-- **A call is read as its tree.** -/
theorem invocation_answers {callee : String} {args : Nat} {own : Option Span} {cs : List Tree}
    (row : Row Answered ((Kind.invocation callee).phrase (.replicate args (.expression 0))) ts own cs) :
    AnswersPrimary ts (.node ⟨.invocation callee, hull ts, own, false, none⟩ cs) := by
  obtain ⟨ls, _, _, own', _, cs', rfl, rfl, rfl, words, row₁⟩ := row.append_inv
  obtain ⟨hls, rfl, rfl⟩ := words.words_inv
  obtain ⟨open_, _, rfl, hopen, row₂⟩ := row₁.word_inv
  obtain ⟨us, _, own₁, _, ds, _, rfl, rfl, rfl, hargs, row₃⟩ := row₂.append_inv
  obtain ⟨close, _, rfl, hclose, row₄⟩ := row₃.word_inv
  obtain ⟨rfl, rfl, rfl⟩ := row₄.nil_inv
  obtain ⟨first, segments, hdotted, hcallee⟩ := Lexeme.exists_segments callee
  rw [hdotted] at hls
  obtain ⟨name, ls, rfl, hname, hsegments⟩ := List.map_eq_cons_iff.mp hls
  intro n c c' horderly took hafter hn
  obtain ⟨c₂, took₁, tookRest⟩ := took.split _
  obtain ⟨c₃, took₂, tookRest⟩ := tookRest.split [open_]
  obtain ⟨c₄, took₃, took₄⟩ := tookRest.split _
  have horderly₃ := took₂.orderly (took₁.orderly horderly)
  obtain ⟨real, rfl, tookPath⟩ := Took.cons_iff.mp took₁
  simp only [List.length_append, List.length_cons, List.length_nil] at hn
  obtain ⟨n, rfl⟩ : ∃ n', n = n' + 1 := ⟨n - 1, by omega⟩
  have hkind : c.next.kind = .identifier := congrArg Lexeme.kind hname
  have hopenKind : open_.kind = .mark .openParen := congrArg Lexeme.kind hopen
  have hcloseKind : close.kind = .mark .closeParen := congrArg Lexeme.kind hclose
  have hnextOpen : c₂.next.kind = .mark .openParen := by
    rw [(Took.one_iff.mp took₂).2.1, hopenKind]
  have hnextClose : c₄.next.kind = .mark .closeParen := by
    rw [(Took.one_iff.mp took₄).2.1, hcloseKind]
  obtain ⟨hread, rfl⟩ := arguments_answers (n := n) hargs horderly₃ took₃ hnextClose (by omega)
  have hpath : dottedName n (nameOf c.next) c.step = .ok (callee, c₂) := by
    have htext : c.next.text = first := congrArg Lexeme.text hname
    rw [dottedName_eq tookPath hsegments (by rw [hnextOpen]; nofun) (by omega), nameOf, htext, hcallee]
  -- A point or the parenthesis comes after the first segment.
  have hcall : (decide (c.step.next.kind = .mark .openParen) ||
      decide (c.step.next.kind = .mark .dot)) = true := by
    cases segments with
    | nil =>
        obtain rfl : ls = [] := by simpa using hsegments
        rw [← Took.nil_iff.mp tookPath, hnextOpen]
        rfl
    | cons segment segments =>
        obtain ⟨dot, ls, rfl, hdot, -⟩ := List.map_eq_cons_iff.mp hsegments
        have hdotKind : dot.kind = .mark .dot := congrArg Lexeme.kind hdot
        rw [(Took.cons_iff.mp tookPath).2.1, hdotKind]
        rfl
  refine ⟨by rw [hkind]; rfl, ?_⟩
  have hliteral : literalKind? c.next.kind = none := by rw [hkind]; rfl
  rw [primary, peek_bind, hliteral]
  dsimp only
  rw [if_neg (by rw [hkind]; nofun), if_pos hkind, nameOrCall, discard_take_bind, at?_bind,
    at?_bind, if_pos hcall, call, bind_eq hpath,
    discard_bind_eq ((expect_ok (by nofun)).mpr ⟨hopenKind, took₂⟩), bind_eq hread,
    discard_bind_eq (mark_ok.mpr ⟨hcloseKind, took₄⟩)]
  simpa using nodeFrom_eq took

/-- **A prefix operator is read as its tree.** -/
theorem prefixUnary_answers {op : UnaryOp} {own : Option Span} {cs : List Tree}
    (row : Row Answered ((Kind.prefixUnary op).phrase [.expression 7]) ts own cs) :
    AnswersUnary ts (.node ⟨.prefixUnary op, hull ts, own, false, none⟩ cs) := by
  obtain ⟨u, _, _, rfl, rfl, hu, row₁⟩ := row.own_inv
  obtain ⟨us, _, operand, _, rfl, rfl, ⟨hderives, hanswers⟩, row₂⟩ := row₁.child_inv
  obtain ⟨rfl, -, rfl⟩ := row₂.nil_inv
  intro n c c' horderly took hafter hn
  rw [List.append_nil] at took hn ⊢
  obtain ⟨real, rfl, tookOperand⟩ := Took.cons_iff.mp took
  rw [List.length_cons] at hn
  obtain ⟨n, rfl⟩ : ∃ n', n = n' + 1 := ⟨n - 1, by omega⟩
  have hkind : c.next.kind = .mark op.mark := congrArg Lexeme.kind hu
  have hoperand : unary n c.step = .ok (operand, c') :=
    (hanswers 7 rfl).unary le_rfl ((took_next rfl real).orderly horderly) tookOperand hafter
      (by omega)
  rw [took.rest] at horderly
  rw [unary, peek_bind, prefixOp?_eq_some.mpr hkind]
  simp only [take_bind]
  have hcover : c.next.span.cover (hull us) = hull (c.next :: us) :=
    hull_cover [] (List.cons_ne_nil c.next []) (hderives.ne_nil nofun)
      horderly.left
  rw [bind_eq hoperand, hderives.span_eq, hcover]
  rfl

/-- **A postfix operator is read as its tree.** -/
theorem postfixUnary_answers {op : UnaryOp} (hstep : op.isStep = true) {own : Option Span}
    {cs : List Tree} (row : Row Answered ((Kind.postfixUnary op).phrase [.expression 8]) ts own cs) :
    AnswersOperand ts (.node ⟨.postfixUnary op, hull ts, own, false, none⟩ cs) := by
  obtain ⟨us, _, operand, _, rfl, rfl, ⟨hderives, hanswers⟩, row₁⟩ := row.child_inv
  obtain ⟨u, _, _, rfl, rfl, hu, row₂⟩ := row₁.own_inv
  obtain ⟨rfl, -, rfl⟩ := row₂.nil_inv
  intro n c c' horderly took hafter hn
  obtain ⟨c₁, took₁, took₂⟩ := took.split _
  obtain ⟨real, rfl, rfl⟩ := Took.one_iff.mp took₂
  rw [List.length_append, List.length_singleton] at hn ⊢
  have hkind : c₁.next.kind = .mark op.mark := congrArg Lexeme.kind hu
  have hafter₁ : AfterName c₁ := by
    rw [AfterName, hkind]
    cases op <;> exact ⟨by nofun, by nofun⟩
  obtain ⟨hstart, m, hm, hloop⟩ :=
    (hanswers 8 rfl).operand le_rfl horderly took₁ hafter₁ (n := n) (by omega)
  obtain ⟨m, rfl⟩ : ∃ m', m = m' + 1 := ⟨m - 1, by omega⟩
  refine ⟨hstart, m, by omega, ?_⟩
  rw [took.rest] at horderly
  rw [hloop, postfixTail, peek_bind, postfixOp?_eq_some.mpr ⟨hkind, hstep⟩]
  simp only [take_bind]
  have hcover : (hull us).cover c₁.next.span = hull (us ++ [c₁.next]) :=
    hull_cover [] (hderives.ne_nil nofun) (List.cons_ne_nil c₁.next [])
      horderly.left
  rw [hderives.span_eq, hcover]
  rfl

/-- **A binary operator is read as its tree**, with the operands that its level allows. -/
theorem binary_answers {op : BinaryOp} {own : Option Span} {cs : List Tree}
    (row : Row Answered ((Kind.binary op).phrase
      [.expression op.precedence, .expression (op.precedence + 1)]) ts own cs) :
    AnswersBinary op.precedence ts (.node ⟨.binary op, hull ts, own, false, none⟩ cs) := by
  obtain ⟨ls, _, left, _, rfl, rfl, ⟨hleft, hleftAnswers⟩, row₁⟩ := row.child_inv
  obtain ⟨u, _, _, rfl, rfl, hu, row₂⟩ := row₁.own_inv
  obtain ⟨rs, _, right, _, rfl, rfl, ⟨hright, hrightAnswers⟩, row₃⟩ := row₂.child_inv
  obtain ⟨rfl, -, rfl⟩ := row₃.nil_inv
  have hone : 1 ≤ op.precedence := by cases op <;> decide
  obtain ⟨q, hq, hleftAnswers⟩ := (hleftAnswers _ rfl).binary hone
  obtain ⟨q', hq', hrightAnswers⟩ := (hrightAnswers _ rfl).binary (by omega)
  intro n level c c' hlevel horderly took hafter hlooser hn
  rw [List.append_nil] at took hn ⊢
  obtain ⟨c₁, took₁, tookRest⟩ := took.split _
  obtain ⟨real, rfl, took₂⟩ := Took.cons_iff.mp tookRest
  rw [List.length_append, List.length_cons] at hn ⊢
  have hkind : c₁.next.kind = .mark op.mark := congrArg Lexeme.kind hu
  have hop := binaryOp?_eq_some.mpr hkind
  have hafter₁ : AfterOperand c₁ := by
    rw [AfterOperand, AfterName, hkind]
    cases op <;> exact ⟨⟨by nofun, by nofun⟩, rfl⟩
  have hlooser₁ : Looser (q + 1) c₁ := by
    intro op' hkind'
    rw [binaryOp?_eq_some.mpr hkind', Option.some.injEq] at hop
    rw [hop]
    omega
  obtain ⟨m, hm, hloop⟩ :=
    hleftAnswers (hlevel.trans hq) horderly took₁ hafter₁ hlooser₁ (n := n) (by omega)
  obtain ⟨m, rfl⟩ : ∃ m', m = m' + 1 := ⟨m - 1, by omega⟩
  have horderly₂ : Orderly c₁.step.rest :=
    (took_next rfl real).orderly (took₁.orderly horderly)
  have hlooser' : Looser (q' + 1) c' := fun op' hkind' => (hlooser op' hkind').trans_le (by omega)
  obtain ⟨m', hm', hloop'⟩ := hrightAnswers hq' horderly₂ took₂ hafter hlooser' (n := m) (by omega)
  rw [binaryTail_stop (by omega) hlooser] at hloop'
  refine ⟨m, by omega, ?_⟩
  rw [took.rest] at horderly
  rw [hloop, binaryTail, peek_bind, hop]
  dsimp only
  rw [if_neg (by omega), take_bind, bind_eq hloop', hleft.span_eq, hright.span_eq, nodeAt,
    hull_cover [c₁.next] (hleft.ne_nil nofun) (hright.ne_nil nofun) horderly.left]
  rfl

/-- **An assignment is read as its tree.** -/
theorem assignment_answers {op : AssignOp} {own : Option Span} {cs : List Tree}
    (row : Row Answered ((Kind.assignment op).phrase [.expression 1, .expression 0]) ts own cs) :
    AnswersExpression ts (.node ⟨.assignment op, hull ts, own, false, none⟩ cs) := by
  obtain ⟨ls, _, target, _, rfl, rfl, ⟨htarget, htargetAnswers⟩, row₁⟩ := row.child_inv
  obtain ⟨u, _, _, rfl, rfl, hu, row₂⟩ := row₁.own_inv
  obtain ⟨rs, _, value, _, rfl, rfl, ⟨hvalue, hvalueAnswers⟩, row₃⟩ := row₂.child_inv
  obtain ⟨rfl, -, rfl⟩ := row₃.nil_inv
  obtain ⟨q, hq, htargetAnswers⟩ := (htargetAnswers _ rfl).binary le_rfl
  intro n c c' horderly took hafter hn
  rw [List.append_nil] at took hn ⊢
  obtain ⟨c₁, took₁, tookRest⟩ := took.split _
  obtain ⟨real, rfl, took₂⟩ := Took.cons_iff.mp tookRest
  rw [List.length_append, List.length_cons] at hn
  obtain ⟨n, rfl⟩ : ∃ n', n = n' + 1 := ⟨n - 1, by omega⟩
  have hkind : c₁.next.kind = .mark op.mark := congrArg Lexeme.kind hu
  have hafter₁ : AfterOperand c₁ := by
    rw [AfterOperand, AfterName, hkind]
    cases op <;> exact ⟨⟨by nofun, by nofun⟩, rfl⟩
  have hlooser (level : Nat) : Looser level c₁ := by
    intro op' hkind'
    rw [hkind] at hkind'
    cases op <;> cases op' <;> cases hkind'
  obtain ⟨m, hm, hloop⟩ :=
    htargetAnswers hq horderly took₁ hafter₁ (hlooser _) (n := n) (by omega)
  rw [binaryTail_stop (by omega) (hlooser _)] at hloop
  have hread : expression n c₁.step = .ok (value, c') :=
    (hvalueAnswers 0 rfl).expression ((took_next rfl real).orderly (took₁.orderly horderly)) took₂
      hafter (by omega)
  rw [took.rest] at horderly
  rw [expression, bind_eq hloop, peek_bind, assignOp?_eq_some.mpr hkind]
  simp only [take_bind]
  rw [bind_eq hread, htarget.span_eq, hvalue.span_eq, nodeAt,
    hull_cover [c₁.next] (htarget.ne_nil nofun) (hvalue.ne_nil nofun) horderly.left]
  rfl

/-- **Tokens that derive an expression** are read as it, on every level that it reaches. -/
theorem answersLevel {level : Nat} (h : Derives (.expression level) ts t) :
    AnswersLevel level ts t := by
  refine h.inductionOn (motive := fun s ts t => ∀ level, s = .expression level → AnswersLevel level ts t)
    ?_ level rfl
  clear h
  rintro s k ss ts own cs rule row level rfl
  have hne : ts ≠ [] :=
    (Derives.node rule (row.mono fun _ _ _ => And.left)).ne_nil nofun
  cases rule with
  | assignment op => exact (assignment_answers row).level
  | binary op reached =>
      exact (binary_answers row).level reached (by cases op <;> decide) (by cases op <;> decide)
  | prefixUnary op reached => exact (prefixUnary_answers row).level hne reached
  | postfixUnary step reached => exact (postfixUnary_answers step row).level hne reached
  | identifier name reached => exact (identifier_answers row).level hne reached
  | literal value reached => exact (literal_answers row).level hne reached
  | parenthesized reached => exact (parenthesized_answers row).level hne reached
  | invocation callee args reached => exact (invocation_answers row).level hne reached

end Parser

end SharpMutants
