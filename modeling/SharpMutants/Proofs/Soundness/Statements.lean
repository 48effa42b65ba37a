import SharpMutants.Proofs.Soundness.Expressions

/-!
# What is read as a statement is derived

A reader of statements that stops in front of an `else` has read a statement that
an `else` may follow (`DerivesStatement`).  An `if` that finds no `else` after its
branch is therefore an open statement, and the branch of an `if` that finds one is
closed: an `else` belongs to the nearest `if`.
-/

namespace SharpMutants

namespace Parser

variable {c c' : Cursor}

/-- An initializer is read as an expression behind its sign, if there is one. -/
theorem initializer_reads (n : Nat) :
    Reads (initializer n) fun ts cs _ => (ts = [] ∧ cs = []) ∨
      ∃ eq us value, ts = eq :: us ∧ cs = [value] ∧ eq.lexeme = .mark .eq ∧
        Derives (.expression 0) us value := by
  intro c cs c' horderly h
  obtain ⟨eq?, c₁, haccept, hrest⟩ := bind_ok.mp h
  rcases (accept_ok (by nofun)).mp haccept with ⟨rfl, eq, hkind, took₁⟩ | ⟨rfl, -, rfl⟩
  · rw [if_pos rfl] at hrest
    obtain ⟨value, c₂, hvalue, hend⟩ := bind_ok.mp hrest
    obtain ⟨rfl, rfl⟩ := pure_ok.mp hend
    have hspelled := took₁.spelled horderly eq List.mem_cons_self
    obtain ⟨us, took₂, horderly, hvalue⟩ :=
      (readsExpressions n).expression (took₁.orderly horderly) hvalue
    exact ⟨_, took₁.cons took₂, horderly,
      .inr ⟨eq, us, value, rfl, rfl, lexeme_of_mark hspelled hkind, hvalue⟩⟩
  · rw [if_neg Bool.false_ne_true] at hrest
    obtain ⟨rfl, rfl⟩ := pure_ok.mp hrest
    exact ⟨[], .refl _, horderly, .inl ⟨rfl, rfl⟩⟩

/-- Declarators are read with commas between them. -/
theorem declarators_reads (n : Nat) :
    Reads (declarators n) fun ts cs _ => Commas .variableDeclarator ts cs ∧ cs ≠ [] := by
  induction n with
  | zero => exact fun c cs c' _ h => (refuse_ok.mp h).elim
  | succ n ih =>
      intro c cs c' horderly h
      simp only [declarators, bind_ok, nodeFrom_ok] at h
      obtain ⟨name, c₁, hname, init, _, hinit, _, c₂, ⟨rfl, rfl⟩, hrest⟩ := h
      obtain ⟨_, took₁, horderly, rfl, hlexeme, -⟩ := identifier_reads horderly hname
      obtain ⟨us, took₂, horderly, hvalue⟩ := initializer_reads n horderly hinit
      have took := took₁.cons took₂
      have hdeclarator : Derives .variableDeclarator (name :: us)
          (.node ⟨.variableDeclarator (nameOf name), ⟨name.span.start, c₂.lastStop⟩, some name.span,
            false, none⟩ init) := by
        rcases hvalue with ⟨rfl, rfl⟩ | ⟨eq, us, value, rfl, rfl, heq, hvalue⟩
        · exact took.derives (.uninitialized _) (.own hlexeme .nil)
        · exact took.derives (.initialized _) (.own hlexeme (.word heq (.one hvalue)))
      obtain ⟨vs, took₃, horderly, hcommas⟩ := andMore_reads ih horderly hdeclarator hrest
      exact ⟨_, took.trans took₃, horderly, hcommas⟩

/-- A variable declaration after its type. -/
theorem variableDeclaration_reads {n : Nat} {type : TypeName} {c₀ : Cursor} {typeToken : Token}
    {t : Tree} (took₀ : Took c₀ [typeToken] c) (hlexeme : typeToken.lexeme = .keyword (.typeName type))
    (hvalue : type ≠ .void) (horderly : Orderly c.rest)
    (h : variableDeclaration n typeToken.span.start type c = .ok (t, c')) :
    ∃ ts, Took c₀ ts c' ∧ Orderly c'.rest ∧ Derives .variableDeclaration ts t := by
  simp only [variableDeclaration, bind_ok, nodeFrom_ok] at h
  obtain ⟨cs, c₁, hcs, rfl, rfl⟩ := h
  obtain ⟨ts, took, horderly, hcommas, hne⟩ := declarators_reads n horderly hcs
  obtain ⟨d, ds, rfl⟩ := List.exists_cons_of_ne_nil hne
  exact ⟨_, took₀.cons took, horderly,
    (took₀.cons took).derives (.variableDeclaration hvalue ds.length) (.word hlexeme hcommas)⟩

/-- A condition is read in its parentheses. -/
theorem condition_reads (n : Nat) :
    Reads (condition n) fun ts t _ =>
      Row Derives [.word (.mark .openParen), .child (.expression 0), .word (.mark .closeParen)]
        ts none [t] := by
  intro c t c' horderly h
  simp only [condition, bind_ok, discard_ok] at h
  obtain ⟨_, c₁, ⟨open_, hopen⟩, cond, c₂, hcond, _, c₃, ⟨close, hclose⟩, hend⟩ := h
  obtain ⟨rfl, rfl⟩ := pure_ok.mp hend
  obtain ⟨_, took₁, horderly, rfl, hopen⟩ := mark_reads _ horderly hopen
  obtain ⟨ts, took₂, horderly, hcond⟩ := (readsExpressions n).expression horderly hcond
  obtain ⟨_, took₃, horderly, rfl, hclose⟩ := mark_reads _ horderly hclose
  exact ⟨_, took₁.cons (took₂.trans took₃), horderly,
    .word hopen (.child hcond (.word hclose .nil))⟩

/-- The initializer of a loop is read as a declaration or an expression. -/
theorem forInit_reads (n : Nat) :
    Reads (forInit n) fun ts t _ =>
      Derives .variableDeclaration ts t ∨ Derives (.expression 0) ts t := by
  intro c t c' horderly h
  rw [forInit, peek_bind] at h
  generalize htype : valueType? c.next.kind = type? at h
  cases type? with
  | some type =>
      obtain ⟨hkind, hvalue⟩ := valueType?_eq_some.mp htype
      have took₁ := took_next hkind nofun
      have hspelled := took₁.spelled horderly _ List.mem_cons_self
      simp only [discard_take_bind] at h
      obtain ⟨ts, took, horderly, hderives⟩ := variableDeclaration_reads took₁
        (lexeme_of_keyword hspelled hkind) hvalue (took₁.orderly horderly) h
      exact ⟨ts, took, horderly, .inl hderives⟩
  | none =>
      obtain ⟨ts, took, horderly, hderives⟩ := (readsExpressions n).expression horderly h
      exact ⟨ts, took, horderly, .inr hderives⟩

/-- Statements in braces are read as a block, wherever the grammar has one. -/
theorem braced_reads {statements : Parser (List Tree)}
    (hstatements : Reads statements fun ts cs c' =>
      Series (.statement false) ts cs ∧ c'.next.kind = .mark .closeBrace) :
    Reads (braced statements) fun ts t _ =>
      ∀ s, (∀ n, Rule s .block (.replicate n (.statement false))) → Derives s ts t := by
  intro c t c' horderly h
  rw [braced] at h
  obtain ⟨brace, c₁, hbrace, h⟩ := bind_ok.mp h
  obtain ⟨body, c₂, hbody, h⟩ := bind_ok.mp h
  rw [discard_take_bind, nodeFrom_ok] at h
  obtain ⟨rfl, rfl⟩ := h
  obtain ⟨_, took₁, horderly, rfl, hopen⟩ := mark_reads _ horderly hbrace
  obtain ⟨ts, took₂, horderly, hseries, hkind⟩ := hstatements horderly hbody
  have took₃ := took_next hkind nofun
  have hspelled := took₃.spelled horderly _ List.mem_cons_self
  have took := took₁.cons (took₂.trans took₃)
  refine ⟨_, took, took₃.orderly horderly, fun s rule => took.derives (rule body.length) ?_⟩
  exact .word hopen (hseries.snoc (lexeme_of_mark hspelled hkind))

/-- The tokens derive a statement, and a closed one if an `else` comes next. -/
def DerivesStatement (ts : List Token) (t : Tree) (c : Cursor) : Prop :=
  ∀ closed : Bool, (closed = true → c.next.kind = .keyword .elseWord) →
    Derives (.statement closed) ts t

/-- An `else` is read with its branch, and otherwise none comes next. -/
theorem elseClause_reads {branch : Parser Tree} (hbranch : Reads branch DerivesStatement) :
    Reads (elseClause branch) fun ts cs c' =>
      (ts = [] ∧ cs = [] ∧ c'.next.kind ≠ .keyword .elseWord) ∨
        ∃ word us t, ts = word :: us ∧ cs = [t] ∧ word.kind = .keyword .elseWord ∧
          ∀ closed : Bool, (closed = true → c'.next.kind = .keyword .elseWord) →
            Derives (.elseClause closed) ts t := by
  intro c cs c' horderly h
  rw [elseClause, peek_bind] at h
  split at h
  · rename_i hkind
    have took₁ := took_next hkind nofun
    have hspelled := took₁.spelled horderly _ List.mem_cons_self
    simp only [discard_take_bind, bind_ok, nodeFrom_ok, pure_ok] at h
    obtain ⟨body, _, hbody, _, c₂, ⟨rfl, rfl⟩, rfl, rfl⟩ := h
    obtain ⟨ts, took₂, horderly, hderives⟩ := hbranch (took₁.orderly horderly) hbody
    refine ⟨_, took₁.cons took₂, horderly, .inr ⟨_, ts, _, rfl, rfl, hkind, fun closed hclosed => ?_⟩⟩
    exact (took₁.cons took₂).derives (.elseClause closed)
      (.word (lexeme_of_keyword hspelled hkind) (.one (hderives closed hclosed)))
  · rename_i hkind
    obtain ⟨rfl, rfl⟩ := pure_ok.mp h
    exact ⟨[], .refl _, horderly, .inl ⟨rfl, rfl, hkind⟩⟩

/-- **An `if` is read as it derives**, closed if an `else` comes next. -/
theorem ifStatement_reads {n : Nat} {branch : Parser Tree} {t : Tree}
    (hbranch : Reads branch DerivesStatement) (hkind : c.next.kind = .keyword .ifWord)
    (horderly : Orderly c.rest) (h : ifStatement n c.next.span.start branch c = .ok (t, c')) :
    ∃ ts, Took c ts c' ∧ Orderly c'.rest ∧ DerivesStatement ts t c' := by
  have took₁ := took_next hkind nofun
  have hspelled := took₁.spelled horderly _ List.mem_cons_self
  simp only [ifStatement, discard_take_bind, bind_ok, nodeFrom_ok] at h
  obtain ⟨cond, c₁, hcond, body, c₂, hbody, cs, c₃, hcs, rfl, rfl⟩ := h
  obtain ⟨ts, took₂, horderly, hcond⟩ := condition_reads n (took₁.orderly horderly) hcond
  obtain ⟨us, took₃, horderly, hbody⟩ := hbranch horderly hbody
  obtain ⟨vs, took₄, horderly, helse⟩ := elseClause_reads hbranch horderly hcs
  have took := took₁.cons (took₂.trans (took₃.trans took₄))
  refine ⟨_, took, horderly, fun closed hclosed => ?_⟩
  have hword := lexeme_of_keyword hspelled hkind
  rcases helse with ⟨rfl, rfl, hnext⟩ | ⟨word, vs, other, rfl, rfl, helseKind, hother⟩
  · -- No `else` comes next, so the statement is an open one.
    obtain rfl : closed = false := by
      cases closed with
      | false => rfl
      | true => exact absurd (hclosed rfl) hnext
    exact took.derives .ifThen (.word hword (hcond.append (.child (hbody false nofun) .nil)))
  · have hnext := (Took.cons_iff.mp took₄).2.1
    have hthen := hbody true fun _ => by rw [hnext, helseKind]
    exact took.derives (.ifElse closed)
      (.word hword (hcond.append (.child hthen (.one (hother closed hclosed)))))

/-- A `while` is read as it derives, closed if its body is. -/
theorem whileStatement_reads {n : Nat} {body : Parser Tree} {t : Tree}
    (hbody : Reads body DerivesStatement) (hkind : c.next.kind = .keyword .whileWord)
    (horderly : Orderly c.rest) (h : whileStatement n c.next.span.start body c = .ok (t, c')) :
    ∃ ts, Took c ts c' ∧ Orderly c'.rest ∧ DerivesStatement ts t c' := by
  have took₁ := took_next hkind nofun
  have hspelled := took₁.spelled horderly _ List.mem_cons_self
  simp only [whileStatement, discard_take_bind, bind_ok, nodeFrom_ok] at h
  obtain ⟨cond, c₁, hcond, inner, c₂, hinner, rfl, rfl⟩ := h
  obtain ⟨ts, took₂, horderly, hcond⟩ := condition_reads n (took₁.orderly horderly) hcond
  obtain ⟨us, took₃, horderly, hinner⟩ := hbody horderly hinner
  have took := took₁.cons (took₂.trans took₃)
  refine ⟨_, took, horderly, fun closed hclosed => took.derives (.whileStatement closed) ?_⟩
  exact .word (lexeme_of_keyword hspelled hkind) (hcond.append (.one (hinner closed hclosed)))

/-- A `for` is read as it derives, closed if its body is. -/
theorem forStatement_reads {n : Nat} {body : Parser Tree} {t : Tree}
    (hbody : Reads body DerivesStatement) (hkind : c.next.kind = .keyword .forWord)
    (horderly : Orderly c.rest) (h : forStatement n c.next.span.start body c = .ok (t, c')) :
    ∃ ts, Took c ts c' ∧ Orderly c'.rest ∧ DerivesStatement ts t c' := by
  have took₁ := took_next hkind nofun
  have hspelled := took₁.spelled horderly _ List.mem_cons_self
  simp only [forStatement, discard_take_bind, bind_ok, discard_ok, nodeFrom_ok] at h
  obtain ⟨_, c₁, ⟨open_, hopen⟩, init, c₂, hinit, _, c₃, ⟨first, hfirst⟩, cond, c₄, hcond, _, c₅,
    ⟨second, hsecond⟩, step, c₆, hstep, _, c₇, ⟨close, hclose⟩, inner, c₈, hinner, rfl, rfl⟩ := h
  obtain ⟨_, took₂, horderly, rfl, hopen⟩ := mark_reads _ (took₁.orderly horderly) hopen
  obtain ⟨ts, took₃, horderly, hinit⟩ := forInit_reads n horderly hinit
  obtain ⟨_, took₄, horderly, rfl, hfirst⟩ := mark_reads _ horderly hfirst
  obtain ⟨us, took₅, horderly, hcond⟩ := (readsExpressions n).expression horderly hcond
  obtain ⟨_, took₆, horderly, rfl, hsecond⟩ := mark_reads _ horderly hsecond
  obtain ⟨vs, took₇, horderly, hstep⟩ := (readsExpressions n).expression horderly hstep
  obtain ⟨_, took₈, horderly, rfl, hclose⟩ := mark_reads _ horderly hclose
  obtain ⟨ws, took₉, horderly, hinner⟩ := hbody horderly hinner
  have took := took₁.cons (took₂.cons (took₃.trans (took₄.cons (took₅.trans (took₆.cons
    (took₇.trans (took₈.cons took₉)))))))
  refine ⟨_, took, horderly, fun closed hclosed => ?_⟩
  have hrow {s : Symbol} (hinit : Derives s ts init) :=
    Row.word (lexeme_of_keyword hspelled hkind) (.word hopen (.child hinit (.word hfirst
      (.child hcond (.word hsecond (.child hstep (.word hclose
        (.one (hinner closed hclosed)))))))))
  rcases hinit with hinit | hinit
  · exact took.derives (.forDeclaration closed) (hrow hinit)
  · exact took.derives (.forExpression closed) (hrow hinit)

/-- A `return` is read as it derives. -/
theorem returnStatement_reads {n : Nat} {t : Tree} (hkind : c.next.kind = .keyword .returnWord)
    (horderly : Orderly c.rest) (h : returnStatement n c.next.span.start c = .ok (t, c')) :
    ∃ ts, Took c ts c' ∧ Orderly c'.rest ∧ DerivesStatement ts t c' := by
  have took₁ := took_next hkind nofun
  have hspelled := took₁.spelled horderly _ List.mem_cons_self
  have hword := lexeme_of_keyword hspelled hkind
  simp only [returnStatement, discard_take_bind] at h
  obtain ⟨cs, c₁, hvalue, h⟩ := bind_ok.mp h
  simp only [bind_ok, discard_ok, nodeFrom_ok] at h
  obtain ⟨_, c₂, ⟨last, hlast⟩, rfl, rfl⟩ := h
  rw [unlessAt, at?_bind] at hvalue
  split at hvalue
  · obtain ⟨rfl, rfl⟩ := pure_ok.mp hvalue
    obtain ⟨_, took₂, horderly, rfl, hlast⟩ := mark_reads _ (took₁.orderly horderly) hlast
    have took := took₁.cons took₂
    exact ⟨_, took, horderly, fun closed _ =>
      took.derives (.returnNothing closed) (.word hword (.word hlast .nil))⟩
  · obtain ⟨value, c₃, hvalue, hend⟩ := bind_ok.mp hvalue
    obtain ⟨rfl, rfl⟩ := pure_ok.mp hend
    obtain ⟨ts, took₂, horderly, hvalue⟩ :=
      (readsExpressions n).expression (took₁.orderly horderly) hvalue
    obtain ⟨_, took₃, horderly, rfl, hlast⟩ := mark_reads _ horderly hlast
    have took := took₁.cons (took₂.trans took₃)
    exact ⟨_, took, horderly, fun closed _ =>
      took.derives (.returnValue closed) (.word hword (.child hvalue (.word hlast .nil)))⟩

/-- A declaration of locals is read as it derives. -/
theorem localDeclaration_reads {n : Nat} {type : TypeName} {t : Tree}
    (htype : valueType? c.next.kind = some type) (horderly : Orderly c.rest)
    (h : localDeclaration n c.next.span.start type c = .ok (t, c')) :
    ∃ ts, Took c ts c' ∧ Orderly c'.rest ∧ DerivesStatement ts t c' := by
  obtain ⟨hkind, hvalue⟩ := valueType?_eq_some.mp htype
  have took₁ := took_next hkind nofun
  have hspelled := took₁.spelled horderly _ List.mem_cons_self
  simp only [localDeclaration, discard_take_bind, bind_ok, discard_ok, nodeFrom_ok] at h
  obtain ⟨declaration, c₁, hdeclaration, _, c₂, ⟨last, hlast⟩, rfl, rfl⟩ := h
  obtain ⟨ts, took₂, horderly₁, hderives⟩ := variableDeclaration_reads took₁
    (lexeme_of_keyword hspelled hkind) hvalue (took₁.orderly horderly) hdeclaration
  obtain ⟨_, took₃, horderly₂, rfl, hlast⟩ := mark_reads _ horderly₁ hlast
  have took := took₂.trans took₃
  refine ⟨_, took, horderly₂, fun closed _ => ?_⟩
  exact took.derives_next (by simp) (.localDeclaration closed)
    (.child hderives (.word hlast .nil))

/-- An expression statement is read as it derives. -/
theorem expressionStatement_reads {n : Nat} {t : Tree} (horderly : Orderly c.rest)
    (h : expressionStatement n c.next.span.start c = .ok (t, c')) :
    ∃ ts, Took c ts c' ∧ Orderly c'.rest ∧ DerivesStatement ts t c' := by
  simp only [expressionStatement, bind_ok, discard_ok, nodeFrom_ok] at h
  obtain ⟨value, c₁, hvalue, _, c₂, ⟨last, hlast⟩, rfl, rfl⟩ := h
  obtain ⟨ts, took₁, horderly, hvalue⟩ := (readsExpressions n).expression horderly hvalue
  obtain ⟨_, took₂, horderly, rfl, hlast⟩ := mark_reads _ horderly hlast
  have took := took₁.trans took₂
  refine ⟨_, took, horderly, fun closed _ => ?_⟩
  exact took.derives_next (by simp) (.expressionStatement closed)
    (.child hvalue (.word hlast .nil))

/-- An empty statement is read as it derives. -/
theorem emptyStatement_reads {t : Tree} (hkind : c.next.kind = .mark .semicolon)
    (horderly : Orderly c.rest) (h : emptyStatement c.next.span.start c = .ok (t, c')) :
    ∃ ts, Took c ts c' ∧ Orderly c'.rest ∧ DerivesStatement ts t c' := by
  have took := took_next hkind nofun
  have hspelled := took.spelled horderly _ List.mem_cons_self
  rw [emptyStatement, discard_take_bind, nodeFrom_ok] at h
  obtain ⟨rfl, rfl⟩ := h
  exact ⟨_, took, took.orderly horderly, fun closed _ =>
    took.derives (.emptyStatement closed) (.word (lexeme_of_mark hspelled hkind) .nil)⟩

/-- What the readers of statements take, at one depth. -/
structure ReadsStatements (n : Nat) : Prop where
  block : Reads (block n) fun ts t _ =>
    ∀ s, (∀ n, Rule s .block (.replicate n (.statement false))) → Derives s ts t
  statements : Reads (statements n) fun ts cs c' =>
    Series (.statement false) ts cs ∧ c'.next.kind = .mark .closeBrace
  statement : Reads (statement n) DerivesStatement

/-- **A statement is read as it derives.** -/
theorem statement_reads {n : Nat} (hn : ReadsStatements n) :
    Reads (statement (n + 1)) DerivesStatement := by
  intro c t c' horderly h
  rw [statement, peek_bind] at h
  generalize hkind : c.next.kind = kind at h
  split at h
  · obtain ⟨ts, took, horderly, hderives⟩ := hn.block horderly h
    exact ⟨ts, took, horderly, fun closed _ => hderives _ (.block closed)⟩
  · exact emptyStatement_reads hkind horderly h
  · exact ifStatement_reads hn.statement hkind horderly h
  · exact whileStatement_reads hn.statement hkind horderly h
  · exact forStatement_reads hn.statement hkind horderly h
  · exact returnStatement_reads hkind horderly h
  · exact (refuse_ok.mp h).elim
  · generalize htype : valueType? kind = type? at h
    cases type? with
    | some type => exact localDeclaration_reads (by rw [hkind, htype]) horderly h
    | none => exact expressionStatement_reads horderly h

/-- **Statements are derived**, at every depth. -/
theorem readsStatements (n : Nat) : ReadsStatements n := by
  induction n with
  | zero =>
      refine ⟨?_, ?_, ?_⟩
      · exact fun c t c' _ h => (refuse_ok.mp h).elim
      · exact fun c t c' _ h => (refuse_ok.mp h).elim
      · exact fun c t c' _ h => (refuse_ok.mp h).elim
  | succ n ih =>
      refine ⟨braced_reads ih.statements, ?_, statement_reads ih⟩
      refine upToBrace_reads (fun c t c' horderly h => ?_) ih.statements
      obtain ⟨ts, took, horderly, hderives⟩ := ih.statement horderly h
      exact ⟨ts, took, horderly, hderives false nofun⟩

end Parser

end SharpMutants
