import SharpMutants.Proofs.Reader

/-!
# What is read as an expression is derived

`Reads p Q` says that a reader which succeeds has taken tokens, and that the
tokens, the result and the place where the reader stops are related by `Q`.  For a
reader of trees the tokens derive the result under the symbol that the reader is
for.

A reader of binary expressions of a level promises more about the next token: it
stops in front of an operator only if the operator is looser than the level
(`Looser`).  The promise makes the left operand of a further operator tight enough.
-/

namespace SharpMutants

namespace Parser

variable {α : Type} {c c' : Cursor}

/-- A reader that succeeds has taken tokens; they, the result and the place where it stops are
related by `Q`. -/
def Reads (p : Parser α) (Q : List Token → α → Cursor → Prop) : Prop :=
  ∀ ⦃c a c'⦄, Orderly c.rest → p c = .ok (a, c') →
    ∃ ts, Took c ts c' ∧ Orderly c'.rest ∧ Q ts a c'

/-- The tokens are the elements in a row, each derived from a symbol. -/
def Series (s : Symbol) (ts : List Token) (cs : List Tree) : Prop :=
  Row Derives ((List.replicate cs.length s).map Part.child) ts none cs

/-- The tokens are the elements with commas between, each derived from a symbol. -/
def Commas (s : Symbol) (ts : List Token) (cs : List Tree) : Prop :=
  Row Derives (Part.commas (List.replicate cs.length s)) ts none cs

/-! ## Words -/

/-- A token that is a mark spells it. -/
theorem lexeme_of_mark {t : Token} {m : Mark} (hspelled : t.lexeme.WellSpelled)
    (hkind : t.kind = .mark m) : t.lexeme = .mark m := by
  rw [Token.lexeme, hkind] at hspelled ⊢
  rw [hspelled.mark, Lexeme.mark]

/-- A token that is a keyword spells it. -/
theorem lexeme_of_keyword {t : Token} {k : Keyword} (hspelled : t.lexeme.WellSpelled)
    (hkind : t.kind = .keyword k) : t.lexeme = .keyword k := by
  rw [Token.lexeme, hkind] at hspelled ⊢
  rw [hspelled.keyword, Lexeme.keyword]

/-- A token that is an identifier spells its name. -/
theorem lexeme_of_identifier {t : Token} (hkind : t.kind = .identifier) :
    t.lexeme = .name (nameOf t).toList := by
  rw [nameOf_toList, Token.lexeme, hkind, Lexeme.name]

/-- A mark is read as one token. -/
theorem mark_reads (m : Mark) :
    Reads (mark m) fun ts t _ => ts = [t] ∧ t.lexeme = .mark m := by
  intro c t c' horderly h
  obtain ⟨hkind, took⟩ := mark_ok.mp h
  exact ⟨[t], took, took.orderly horderly, rfl,
    lexeme_of_mark (took.spelled horderly t List.mem_cons_self) hkind⟩

/-- A keyword is read as one token. -/
theorem keyword_reads (k : Keyword) :
    Reads (keyword k) fun ts t _ => ts = [t] ∧ t.lexeme = .keyword k := by
  intro c t c' horderly h
  obtain ⟨hkind, took⟩ := keyword_ok.mp h
  exact ⟨[t], took, took.orderly horderly, rfl,
    lexeme_of_keyword (took.spelled horderly t List.mem_cons_self) hkind⟩

/-- An identifier is read as one token, without a dot. -/
theorem identifier_reads :
    Reads identifier fun ts t _ =>
      ts = [t] ∧ t.lexeme = .name (nameOf t).toList ∧ '.' ∉ (nameOf t).toList := by
  intro c t c' horderly h
  obtain ⟨hkind, took⟩ := identifier_ok.mp h
  refine ⟨[t], took, took.orderly horderly, rfl, lexeme_of_identifier hkind, ?_⟩
  have hspelled := took.spelled horderly t List.mem_cons_self
  rw [Token.lexeme, hkind] at hspelled
  rw [nameOf_toList]
  exact hspelled.identifier

/-- The type of a value is read as one token, and is not `void`. -/
theorem valueType_reads :
    Reads valueType fun ts type _ =>
      type ≠ .void ∧ ∃ t, ts = [t] ∧ t.lexeme = .keyword (.typeName type) := by
  intro c type c' horderly h
  obtain ⟨hvalue, t, hkind, took⟩ := valueType_ok.mp h
  exact ⟨[t], took, took.orderly horderly, hvalue, t, rfl,
    lexeme_of_keyword (took.spelled horderly t List.mem_cons_self) hkind⟩

/-- The type of a member is read as one token. -/
theorem memberType_reads :
    Reads memberType fun ts type _ => ∃ t, ts = [t] ∧ t.lexeme = .keyword (.typeName type) := by
  intro c type c' horderly h
  obtain ⟨t, hkind, took⟩ := memberType_ok.mp h
  exact ⟨[t], took, took.orderly horderly, t, rfl,
    lexeme_of_keyword (took.spelled horderly t List.mem_cons_self) hkind⟩

/-- The rest of a dotted name is read as the words that the name has gained. -/
theorem dottedName_reads (n : Nat) (name : String) :
    Reads (dottedName n name) fun ts path _ =>
      Lexeme.dotted path = Lexeme.dotted name ++ ts.map Token.lexeme := by
  induction n generalizing name with
  | zero => exact fun c path c' _ h => (refuse_ok.mp h).elim
  | succ n ih =>
      intro c path c' horderly h
      obtain ⟨more, c₁, haccept, hrest⟩ := bind_ok.mp h
      rcases (accept_ok (by nofun)).mp haccept with ⟨rfl, dot, hdot, took₁⟩ | ⟨rfl, -, rfl⟩
      · rw [if_pos rfl] at hrest
        obtain ⟨segment, c₂, hsegment, hrest⟩ := bind_ok.mp hrest
        have hspelled := took₁.spelled horderly dot List.mem_cons_self
        obtain ⟨_, took₂, horderly, rfl, hname, hplain⟩ :=
          identifier_reads (took₁.orderly horderly) hsegment
        obtain ⟨ts, took₃, horderly, hpath⟩ := ih _ horderly hrest
        refine ⟨_, took₁.trans (took₂.trans took₃), horderly, ?_⟩
        show Lexeme.dotted path = _
        rw [hpath, Lexeme.dotted_append _ hplain, ← hname, ← lexeme_of_mark hspelled hdot]
        simp
      · rw [if_neg Bool.false_ne_true] at hrest
        obtain ⟨rfl, rfl⟩ := pure_ok.mp hrest
        exact ⟨[], .refl _, horderly, by simp⟩

/-- A dotted name is read as its segments and dots. -/
theorem qualifiedName_reads (n : Nat) :
    Reads (qualifiedName n) fun ts path _ => ts.map Token.lexeme = Lexeme.dotted path := by
  intro c path c' horderly h
  obtain ⟨first, c₁, hfirst, hrest⟩ := bind_ok.mp h
  obtain ⟨_, took₁, horderly, rfl, hname, hplain⟩ := identifier_reads horderly hfirst
  obtain ⟨ts, took₂, horderly, hpath⟩ := dottedName_reads n _ horderly hrest
  refine ⟨_, took₁.trans took₂, horderly, ?_⟩
  show _ = Lexeme.dotted path
  rw [hpath, Lexeme.dotted_of_plain hplain, List.map_append, List.map_singleton, hname]

/-- Modifiers are read as their words. -/
theorem modifiers_reads (n : Nat) :
    Reads (modifiers n) fun ts ms _ =>
      ts.map Token.lexeme = ms.map fun m => .keyword (.modifier m) := by
  induction n with
  | zero =>
      intro c ms c' horderly h
      obtain ⟨rfl, rfl⟩ := pure_ok.mp h
      exact ⟨[], .refl _, horderly, rfl⟩
  | succ n ih =>
      intro c ms c' horderly h
      rw [modifiers, peek_bind] at h
      generalize hkind : c.next.kind = kind at h
      split at h
      · rename_i m
        have took₁ := took_next hkind nofun
        have hspelled := took₁.spelled horderly _ List.mem_cons_self
        rw [discard_take_bind] at h
        obtain ⟨ms, c₁, hms, hend⟩ := bind_ok.mp h
        obtain ⟨rfl, rfl⟩ := pure_ok.mp hend
        obtain ⟨ts, took₂, horderly, hmap⟩ := ih (took₁.orderly horderly) hms
        refine ⟨_, took₁.trans took₂, horderly, ?_⟩
        show ([c.next] ++ ts).map Token.lexeme = _
        rw [List.map_append, hmap, List.map_singleton, lexeme_of_keyword hspelled hkind]
        rfl
      · obtain ⟨rfl, rfl⟩ := pure_ok.mp h
        exact ⟨[], .refl _, horderly, rfl⟩

/-! ## Lists -/

/-- An element and more after a comma are read with commas between them. -/
theorem andMore_reads {s : Symbol} {more : Parser (List Tree)} {first : Tree}
    (hmore : Reads more fun ts cs _ => Commas s ts cs ∧ cs ≠ []) {c c' : Cursor} {ts : List Token}
    {cs : List Tree} (horderly : Orderly c.rest) (hfirst : Derives s ts first)
    (h : andMore first more c = .ok (cs, c')) :
    ∃ us, Took c us c' ∧ Orderly c'.rest ∧ Commas s (ts ++ us) cs ∧ cs ≠ [] := by
  obtain ⟨comma?, c₁, haccept, hrest⟩ := bind_ok.mp h
  rcases (accept_ok (by nofun)).mp haccept with ⟨rfl, comma, hcomma, took₁⟩ | ⟨rfl, -, rfl⟩
  · rw [if_pos rfl] at hrest
    obtain ⟨ds, c₂, hds, hend⟩ := bind_ok.mp hrest
    obtain ⟨rfl, rfl⟩ := pure_ok.mp hend
    have hspelled := took₁.spelled horderly comma List.mem_cons_self
    obtain ⟨us, took₂, horderly, hcommas, hne⟩ := hmore (took₁.orderly horderly) hds
    refine ⟨_, took₁.trans took₂, horderly, ?_, by simp⟩
    obtain ⟨d, ds, rfl⟩ := List.exists_cons_of_ne_nil hne
    exact .child hfirst (.word (lexeme_of_mark hspelled hcomma) hcommas)
  · rw [if_neg Bool.false_ne_true] at hrest
    obtain ⟨rfl, rfl⟩ := pure_ok.mp hrest
    exact ⟨[], .refl _, horderly, .child hfirst .nil, by simp⟩

/-- Elements up to a brace are read in a row. -/
theorem upToBrace_reads {s : Symbol} {first : Parser Tree} {more : Parser (List Tree)}
    (hfirst : Reads first fun ts t _ => Derives s ts t)
    (hmore : Reads more fun ts cs c' => Series s ts cs ∧ c'.next.kind = .mark .closeBrace) :
    Reads (upToBrace first more) fun ts cs c' =>
      Series s ts cs ∧ c'.next.kind = .mark .closeBrace := by
  intro c cs c' horderly h
  rw [upToBrace, at?_bind] at h
  by_cases hbrace : c.next.kind = .mark .closeBrace
  · rw [if_pos (by simpa using hbrace)] at h
    obtain ⟨rfl, rfl⟩ := pure_ok.mp h
    exact ⟨[], .refl _, horderly, .nil, hbrace⟩
  · rw [if_neg (by simpa using hbrace), at?_bind] at h
    by_cases hend : c.next.kind = .endOfInput
    · rw [if_pos (by simpa using hend)] at h
      exact (refuse_ok.mp h).elim
    · rw [if_neg (by simpa using hend)] at h
      obtain ⟨d, c₁, hd, hrest⟩ := bind_ok.mp h
      obtain ⟨ds, c₂, hds, hpure⟩ := bind_ok.mp hrest
      obtain ⟨rfl, rfl⟩ := pure_ok.mp hpure
      obtain ⟨ts, took₁, horderly, hd⟩ := hfirst horderly hd
      obtain ⟨us, took₂, horderly, hds, hnext⟩ := hmore horderly hds
      exact ⟨_, took₁.trans took₂, horderly, .child hd hds, hnext⟩

/-! ## Expressions -/

/-- A literal is read as an expression that binds most tightly. -/
theorem literal_reads {token : Token} {kind : LiteralKind} {t : Tree} (htoken : token = c.next)
    (hkind : literalKind? token.kind = some kind) (horderly : Orderly c.rest)
    (h : literal token kind c = .ok (t, c')) :
    ∃ ts, Took c ts c' ∧ Orderly c'.rest ∧ Derives (.expression 9) ts t := by
  subst htoken
  rw [literal, discard_take_bind] at h
  obtain ⟨rfl, rfl⟩ := pure_ok.mp h
  have real : c.next.kind ≠ .endOfInput := by
    intro hend
    rw [hend] at hkind
    cases hkind
  have took := took_next rfl real
  have hspelled := took.spelled horderly _ List.mem_cons_self
  have hword {k : Keyword} (hk : c.next.kind = .keyword k) : nameOf c.next = k.spelling := by
    have htext : c.next.text = k.spelling.toList :=
      congrArg Lexeme.text (lexeme_of_keyword hspelled hk)
    rw [nameOf, htext, String.ofList_toList]
  have hlexeme : c.next.lexeme = Literal.lexeme ⟨kind, nameOf c.next⟩ := by
    unfold literalKind? at hkind
    rw [Literal.lexeme, nameOf_toList]
    split at hkind <;> cases hkind <;> rename_i hk
    · rw [Token.lexeme, hk, Literal.tokenKind]
    · rw [Token.lexeme, hk, Literal.tokenKind]
    · rw [Token.lexeme, hk, Literal.tokenKind]
    · rw [Token.lexeme, hk, Literal.tokenKind, hword hk]
      rfl
    · rw [Token.lexeme, hk, Literal.tokenKind, hword hk]
      rfl
  exact ⟨_, took, took.orderly horderly, .node (.literal _ le_rfl) (.own hlexeme .nil)⟩

/-- Parentheses are read as an expression that binds most tightly. -/
theorem parenthesized_reads {inner : Parser Tree} {t : Tree}
    (hinner : Reads inner fun ts t _ => Derives (.expression 0) ts t)
    (hkind : c.next.kind = .mark .openParen) (horderly : Orderly c.rest)
    (h : parenthesized c.next.span.start inner c = .ok (t, c')) :
    ∃ ts, Took c ts c' ∧ Orderly c'.rest ∧ Derives (.expression 9) ts t := by
  have took₁ := took_next hkind nofun
  have hspelled := took₁.spelled horderly _ List.mem_cons_self
  rw [parenthesized, discard_take_bind] at h
  simp only [bind_ok, discard_ok, nodeFrom_ok] at h
  obtain ⟨value, c₁, hvalue, _, c₂, ⟨close, hclose⟩, rfl, rfl⟩ := h
  obtain ⟨ts, took₂, horderly, hderives⟩ := hinner (took₁.orderly horderly) hvalue
  obtain ⟨_, took₃, horderly, rfl, hword⟩ := mark_reads _ horderly hclose
  have took := took₁.cons (took₂.trans took₃)
  refine ⟨_, took, horderly, took.derives (.parenthesized le_rfl) ?_⟩
  exact .word (lexeme_of_mark hspelled hkind) (.child hderives (.word hword .nil))

/-- Elements up to a token are read with commas between them, if there are any. -/
theorem unlessAt_reads {s : Symbol} {k : TokenKind} {elements : Parser (List Tree)}
    (helements : Reads elements fun ts cs _ => Commas s ts cs ∧ cs ≠ []) :
    Reads (unlessAt k elements) fun ts cs _ => Commas s ts cs := by
  intro c cs c' horderly h
  rw [unlessAt, at?_bind] at h
  split at h
  · obtain ⟨rfl, rfl⟩ := pure_ok.mp h
    exact ⟨[], .refl _, horderly, .nil⟩
  · obtain ⟨ts, took, horderly, hcommas, -⟩ := helements horderly h
    exact ⟨ts, took, horderly, hcommas⟩

/-- A call is read as an expression that binds most tightly. -/
theorem call_reads {n : Nat} {name : Token} {args : Parser (List Tree)} {t : Tree} {c₀ : Cursor}
    (hargs : Reads args fun ts cs _ => Commas (.expression 0) ts cs ∧ cs ≠ [])
    (took₀ : Took c₀ [name] c) (hkind : name.kind = .identifier) (horderly : Orderly c₀.rest)
    (h : call n name args c = .ok (t, c')) :
    ∃ ts, Took c₀ ts c' ∧ Orderly c'.rest ∧ Derives (.expression 9) ts t := by
  have hspelled := took₀.spelled horderly name List.mem_cons_self
  rw [Token.lexeme, hkind] at hspelled
  have hplain : '.' ∉ (nameOf name).toList := by
    rw [nameOf_toList]
    exact hspelled.identifier
  simp only [call, bind_ok, discard_ok, nodeFrom_ok] at h
  obtain ⟨callee, c₁, hcallee, _, c₂, ⟨open_, hopen⟩, cs, c₃, hcs, _, c₄, ⟨close, hclose⟩,
    rfl, rfl⟩ := h
  obtain ⟨ts, took₁, horderly, hdotted⟩ :=
    dottedName_reads n _ (took₀.orderly horderly) hcallee
  obtain ⟨hopenKind, took₂⟩ := (expect_ok (by nofun)).mp hopen
  have hopenSpelled := took₂.spelled horderly open_ List.mem_cons_self
  obtain ⟨us, took₃, horderly, hcommas⟩ := unlessAt_reads hargs (took₂.orderly horderly) hcs
  obtain ⟨_, took₄, horderly, rfl, hcloseWord⟩ := mark_reads _ horderly hclose
  have took := took₀.cons (took₁.trans (took₂.cons (took₃.trans took₄)))
  refine ⟨_, took, horderly, took.derives (.invocation callee cs.length le_rfl) ?_⟩
  have hwords : (name :: ts).map Token.lexeme = Lexeme.dotted callee := by
    rw [hdotted, Lexeme.dotted_of_plain hplain, List.map_cons, lexeme_of_identifier hkind]
    rfl
  exact (Row.ofWords hwords).append (.word (lexeme_of_mark hopenSpelled hopenKind)
    (hcommas.snoc hcloseWord))

/-- A name or a call is read as an expression that binds most tightly. -/
theorem nameOrCall_reads {n : Nat} {args : Parser (List Tree)} {t : Tree}
    (hargs : Reads args fun ts cs _ => Commas (.expression 0) ts cs ∧ cs ≠ [])
    (hkind : c.next.kind = .identifier) (horderly : Orderly c.rest)
    (h : nameOrCall n c.next args c = .ok (t, c')) :
    ∃ ts, Took c ts c' ∧ Orderly c'.rest ∧ Derives (.expression 9) ts t := by
  have took := took_next hkind nofun
  rw [nameOrCall, discard_take_bind, at?_bind, at?_bind] at h
  split at h
  · exact call_reads hargs took hkind horderly h
  · obtain ⟨rfl, rfl⟩ := pure_ok.mp h
    exact ⟨_, took, took.orderly horderly,
      .node (.identifier _ le_rfl) (.own (lexeme_of_identifier hkind) .nil)⟩

/-- A node over its tokens, whose extent was put together from parts. -/
theorem derives_nodeAt {s : Symbol} {k : Kind} {ss : List Symbol} {ts : List Token} {span own : Span}
    {cs : List Tree} (rule : Rule s k ss) (row : Row Derives (k.phrase ss) ts (some own) cs)
    (hspan : span = hull ts) : Derives s ts (nodeAt span k own cs) := by
  rw [hspan]
  exact .node rule row

/-- Postfix operators are read as they bind, behind their operand. -/
theorem postfixTail_reads {n : Nat} {operand t : Tree} {ls : List Token}
    (horderly : Orderly (ls ++ c.rest)) (hoperand : Derives (.expression 8) ls operand)
    (h : postfixTail n operand c = .ok (t, c')) :
    ∃ us, Took c us c' ∧ Derives (.expression 8) (ls ++ us) t := by
  induction n generalizing c operand ls with
  | zero => exact (refuse_ok.mp h).elim
  | succ n ih =>
      rw [postfixTail, peek_bind] at h
      generalize hop : postfixOp? c.next.kind = op? at h
      cases op? with
      | none =>
          obtain ⟨rfl, rfl⟩ := pure_ok.mp h
          exact ⟨[], .refl _, by rwa [List.append_nil]⟩
      | some op =>
          obtain ⟨hkind, hstep⟩ := postfixOp?_eq_some.mp hop
          have took := took_next hkind nofun
          have hspelled := took.spelled horderly.right _ List.mem_cons_self
          simp only [take_bind] at h
          rw [took.rest, ← List.append_assoc] at horderly
          have hwhole : Orderly (ls ++ ([] ++ [c.next])) := horderly.left
          have hnode : Derives (.expression 8) (ls ++ [c.next])
              (nodeAt (operand.span.cover c.next.span) (.postfixUnary op) c.next.span [operand]) := by
            refine derives_nodeAt (.postfixUnary hstep le_rfl)
              (.child hoperand (.own (lexeme_of_mark hspelled hkind) .nil)) ?_
            rw [hoperand.span_eq]
            exact hull_cover _ (hoperand.ne_nil nofun) (List.cons_ne_nil _ _) hwhole
          obtain ⟨us, tookMore, hderives⟩ := ih horderly hnode h
          exact ⟨_, took.cons tookMore, by rwa [List.append_assoc] at hderives⟩

/-- What the readers of expressions take, at one depth. -/
structure ReadsExpressions (n : Nat) : Prop where
  expression : Reads (expression n) fun ts t _ => Derives (.expression 0) ts t
  binary : ∀ level ≤ 7, Reads (binary n level) fun ts t c' =>
    Derives (.expression level) ts t ∧ Looser level c'
  binaryTail : ∀ {level q : Nat} {left t : Tree} {ls : List Token} {c c' : Cursor}, level ≤ q →
    Orderly (ls ++ c.rest) → Derives (.expression q) ls left → Looser (q + 1) c →
    binaryTail n level left c = .ok (t, c') →
    ∃ us, Took c us c' ∧ Derives (.expression level) (ls ++ us) t ∧ Looser level c'
  unary : Reads (unary n) fun ts t _ => Derives (.expression 7) ts t
  primary : Reads (primary n) fun ts t _ => Derives (.expression 9) ts t
  arguments : Reads (arguments n) fun ts cs _ => Commas (.expression 0) ts cs ∧ cs ≠ []

/-- An expression is read as it derives. -/
theorem expression_reads {n : Nat} (hn : ReadsExpressions n) :
    Reads (expression (n + 1)) fun ts t _ => Derives (.expression 0) ts t := by
  intro c t c' horderly h
  rw [expression] at h
  obtain ⟨target, c₁, htarget, hrest⟩ := bind_ok.mp h
  obtain ⟨ts, took₁, horderly₁, hderives, -⟩ := hn.binary 1 (by omega) horderly htarget
  rw [peek_bind] at hrest
  generalize hop : assignOp? c₁.next.kind = op? at hrest
  cases op? with
  | none =>
      obtain ⟨rfl, rfl⟩ := pure_ok.mp hrest
      exact ⟨ts, took₁, horderly₁, hderives.weaken (Nat.zero_le 1)⟩
  | some op =>
      have hkind := assignOp?_eq_some.mp hop
      have took₂ := took_next hkind nofun
      have hspelled := took₂.spelled horderly₁ _ List.mem_cons_self
      simp only [take_bind] at hrest
      obtain ⟨value, c₂, hvalue, hend⟩ := bind_ok.mp hrest
      obtain ⟨rfl, rfl⟩ := pure_ok.mp hend
      obtain ⟨us, took₃, horderly₂, hvalue⟩ := hn.expression (took₂.orderly horderly₁) hvalue
      have took := took₁.trans (took₂.cons took₃)
      refine ⟨_, took, horderly₂, derives_nodeAt (.assignment op)
        (.child hderives (.own (lexeme_of_mark hspelled hkind) (.one hvalue))) ?_⟩
      rw [hderives.span_eq, hvalue.span_eq]
      rw [took.rest] at horderly
      exact hull_cover [c₁.next] (hderives.ne_nil nofun) (hvalue.ne_nil nofun) horderly.left

/-- **The rest of a binary expression** is read as it binds, behind its left operand. -/
theorem binaryTail_reads {n : Nat} (hn : ReadsExpressions n) {level q : Nat} {left t : Tree}
    {ls : List Token} (hlevel : level ≤ q) (horderly : Orderly (ls ++ c.rest))
    (hleft : Derives (.expression q) ls left) (hlooser : Looser (q + 1) c)
    (h : binaryTail (n + 1) level left c = .ok (t, c')) :
    ∃ us, Took c us c' ∧ Derives (.expression level) (ls ++ us) t ∧ Looser level c' := by
  have hstop : Derives (.expression level) (ls ++ []) left := by
    rw [List.append_nil]
    exact hleft.weaken hlevel
  rw [binaryTail, peek_bind] at h
  generalize hop : binaryOp? c.next.kind = op? at h
  cases op? with
  | none =>
      obtain ⟨rfl, rfl⟩ := pure_ok.mp h
      refine ⟨[], .refl _, hstop, fun op hkind => ?_⟩
      rw [binaryOp?_eq_some.mpr hkind] at hop
      cases hop
  | some op =>
      dsimp only at h
      have hkind := binaryOp?_eq_some.mp hop
      split at h
      · rename_i hlow
        obtain ⟨rfl, rfl⟩ := pure_ok.mp h
        refine ⟨[], .refl _, hstop, fun op' hkind' => ?_⟩
        have hsame := binaryOp?_eq_some.mpr hkind'
        rw [hop, Option.some.injEq] at hsame
        rwa [← hsame]
      · -- The operator is not tighter than the left operand, so it takes it as it is.
        rename_i hlow
        have htight : op.precedence ≤ q := Nat.le_of_lt_succ (hlooser op hkind)
        have hsix : op.precedence ≤ 6 := by cases op <;> decide
        have took₁ := took_next hkind nofun
        have hspelled := took₁.spelled horderly.right _ List.mem_cons_self
        rw [take_bind] at h
        obtain ⟨right, c₁, hright, hrest⟩ := bind_ok.mp h
        obtain ⟨rs, took₂, horderly₁, hright, hafter⟩ :=
          hn.binary (op.precedence + 1) (by omega) (took₁.orderly horderly.right) hright
        rw [(took₁.cons took₂).rest, ← List.append_assoc] at horderly
        have hnode : Derives (.expression op.precedence) (ls ++ (c.next :: rs))
            (nodeAt (left.span.cover right.span) (.binary op) c.next.span [left, right]) := by
          refine derives_nodeAt (.binary op le_rfl) (.child (hleft.weaken htight)
            (.own (lexeme_of_mark hspelled hkind) (.one hright))) ?_
          rw [hleft.span_eq, hright.span_eq]
          exact hull_cover [c.next] (hleft.ne_nil nofun) (hright.ne_nil nofun)
            horderly.left
        obtain ⟨us, took₃, hderives, hend⟩ :=
          hn.binaryTail (Nat.le_of_not_lt hlow) horderly hnode hafter hrest
        exact ⟨_, (took₁.cons took₂).trans took₃, by rwa [← List.append_assoc], hend⟩

/-- **A binary expression is read as it derives**, up to an operator that does not bind as
tightly. -/
theorem binary_reads {n : Nat} (hn : ReadsExpressions n) {level : Nat} (hlevel : level ≤ 7) :
    Reads (binary (n + 1) level) fun ts t c' =>
      Derives (.expression level) ts t ∧ Looser level c' := by
  intro c t c' horderly h
  rw [binary] at h
  obtain ⟨left, c₁, hleft, hrest⟩ := bind_ok.mp h
  obtain ⟨ts, took₁, horderly₁, hleft⟩ := hn.unary horderly hleft
  rw [took₁.rest] at horderly
  have hlooser : Looser (7 + 1) c₁ := by
    intro op _
    cases op <;> decide
  obtain ⟨us, took₂, hderives⟩ := hn.binaryTail hlevel horderly hleft hlooser hrest
  exact ⟨_, took₁.trans took₂, took₂.orderly horderly₁, hderives⟩

/-- A unary expression is read as it derives. -/
theorem unary_reads {n : Nat} (hn : ReadsExpressions n) :
    Reads (unary (n + 1)) fun ts t _ => Derives (.expression 7) ts t := by
  intro c t c' horderly h
  rw [unary, peek_bind] at h
  generalize hop : prefixOp? c.next.kind = op? at h
  cases op? with
  | some op =>
      have hkind := prefixOp?_eq_some.mp hop
      have took₁ := took_next hkind nofun
      have hspelled := took₁.spelled horderly _ List.mem_cons_self
      simp only [take_bind] at h
      obtain ⟨operand, c₁, hoperand, hend⟩ := bind_ok.mp h
      obtain ⟨rfl, rfl⟩ := pure_ok.mp hend
      obtain ⟨ts, took₂, horderly₁, hoperand⟩ := hn.unary (took₁.orderly horderly) hoperand
      have took := took₁.cons took₂
      refine ⟨_, took, horderly₁, derives_nodeAt (.prefixUnary op le_rfl)
        (.own (lexeme_of_mark hspelled hkind) (.one hoperand)) ?_⟩
      rw [hoperand.span_eq]
      rw [took.rest] at horderly
      exact hull_cover [] (List.cons_ne_nil c.next [])
        (hoperand.ne_nil nofun) horderly.left
  | none =>
      obtain ⟨operand, c₁, hoperand, hrest⟩ := bind_ok.mp h
      obtain ⟨ts, took₁, horderly₁, hoperand⟩ := hn.primary horderly hoperand
      rw [took₁.rest] at horderly
      obtain ⟨us, took₂, hderives⟩ :=
        postfixTail_reads horderly (hoperand.weaken (by omega)) hrest
      exact ⟨_, took₁.trans took₂, took₂.orderly horderly₁, hderives.weaken (by omega)⟩

/-- A primary expression is read as it derives. -/
theorem primary_reads {n : Nat} (hn : ReadsExpressions n) :
    Reads (primary (n + 1)) fun ts t _ => Derives (.expression 9) ts t := by
  intro c t c' horderly h
  rw [primary, peek_bind] at h
  generalize hliteral : literalKind? c.next.kind = kind? at h
  cases kind? with
  | some kind => exact literal_reads rfl hliteral horderly h
  | none =>
      dsimp only at h
      split at h
      · rename_i hkind
        exact parenthesized_reads hn.expression hkind horderly h
      · split at h
        · rename_i hkind
          exact nameOrCall_reads hn.arguments hkind horderly h
        · exact (refuse_ok.mp h).elim

/-- Arguments are read with commas between them. -/
theorem arguments_reads {n : Nat} (hn : ReadsExpressions n) :
    Reads (arguments (n + 1)) fun ts cs _ => Commas (.expression 0) ts cs ∧ cs ≠ [] := by
  intro c cs c' horderly h
  rw [arguments] at h
  obtain ⟨arg, c₁, harg, hrest⟩ := bind_ok.mp h
  obtain ⟨ts, took₁, horderly, harg⟩ := hn.expression horderly harg
  obtain ⟨us, took₂, horderly, hcommas⟩ := andMore_reads hn.arguments horderly harg hrest
  exact ⟨_, took₁.trans took₂, horderly, hcommas⟩

/-- **Expressions are derived**, at every depth. -/
theorem readsExpressions (n : Nat) : ReadsExpressions n := by
  induction n with
  | zero =>
      refine ⟨?_, ?_, ?_, ?_, ?_, ?_⟩
      · exact fun c t c' _ h => (refuse_ok.mp h).elim
      · exact fun _ _ c t c' _ h => (refuse_ok.mp h).elim
      · exact fun _ _ _ _ h => (refuse_ok.mp h).elim
      · exact fun c t c' _ h => (refuse_ok.mp h).elim
      · exact fun c t c' _ h => (refuse_ok.mp h).elim
      · exact fun c t c' _ h => (refuse_ok.mp h).elim
  | succ n ih =>
      exact ⟨expression_reads ih, fun _ hlevel => binary_reads ih hlevel, binaryTail_reads ih,
        unary_reads ih, primary_reads ih, arguments_reads ih⟩

end Parser

end SharpMutants
