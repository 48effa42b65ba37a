import SharpMutants.Syntax.Parse
import SharpMutants.Proofs.Scanning

/-!
# What the readers take

`Took c ts c'` says that the tokens `ts` lie between two places.  A reader that
succeeds has taken the tokens between the place where it began and the place where
it stopped, so every reader below is described by one equivalence: it answers with
a result exactly if it took such and such tokens, or looked at such a next one.
Read from left to right the equivalences take a successful run apart; read from
right to left they put one together.
-/

namespace SharpMutants

/-- The tokens between two places, none of them the end of the input. -/
structure Took (c : Cursor) (ts : List Token) (c' : Cursor) : Prop where
  rest : c.rest = ts ++ c'.rest
  stop : c'.lastStop = stopAfter c.lastStop ts
  real : ∀ t ∈ ts, t.kind ≠ .endOfInput

namespace Took

variable {c c' c'' : Cursor} {t : Token} {ts us : List Token}

theorem refl (c : Cursor) : Took c [] c := ⟨rfl, rfl, nofun⟩

/-- Nothing is taken only between a place and itself. -/
theorem nil_iff : Took c [] c' ↔ c' = c := by
  constructor
  · rintro ⟨rest, stop, -⟩
    cases c
    cases c'
    simp_all
  · rintro rfl
    exact .refl c'

/-- Tokens taken one run after the other are taken in a row. -/
theorem trans (first : Took c ts c') (second : Took c' us c'') : Took c (ts ++ us) c'' where
  rest := by rw [first.rest, second.rest, List.append_assoc]
  stop := by rw [second.stop, first.stop, stopAfter_append]
  real := fun t ht => (List.mem_append.mp ht).elim (first.real t) (second.real t)

/-- A token that is taken first is taken in front. -/
theorem cons (first : Took c [t] c') (second : Took c' us c'') : Took c (t :: us) c'' :=
  first.trans second

/-- Tokens are taken one part after the other. -/
theorem split (ts : List Token) (h : Took c (ts ++ us) c'') : ∃ c', Took c ts c' ∧ Took c' us c'' :=
  ⟨⟨stopAfter c.lastStop ts, us ++ c''.rest⟩,
    ⟨by rw [h.rest, List.append_assoc], rfl, fun t ht => h.real t (List.mem_append_left us ht)⟩,
    ⟨rfl, by rw [h.stop, stopAfter_append], fun t ht => h.real t (List.mem_append_right ts ht)⟩⟩

/-- The first token is the next one, and then the others are taken. -/
theorem cons_iff :
    Took c (t :: ts) c' ↔ t.kind ≠ .endOfInput ∧ c.next = t ∧ Took c.step ts c' := by
  obtain ⟨stop, rest⟩ := c
  cases rest with
  | nil =>
      refine ⟨fun h => by simpa using h.rest, ?_⟩
      rintro ⟨real, rfl, -⟩
      exact absurd rfl real
  | cons u us =>
      constructor
      · rintro ⟨rest, stop, real⟩
        obtain ⟨rfl, rest⟩ := List.cons.inj rest
        have here : u.kind ≠ .endOfInput := real u List.mem_cons_self
        refine ⟨here, rfl, ?_, ?_, fun t ht => real t (List.mem_cons_of_mem u ht)⟩
        · simpa [Cursor.step, here] using rest
        · simpa [Cursor.step, here] using stop
      · rintro ⟨here, rfl, rest, stop, real⟩
        simp only [Cursor.next] at here
        simp only [Cursor.step, if_neg here] at rest stop
        exact ⟨by rw [rest]; rfl, stop, fun t ht =>
          (List.mem_cons.mp ht).elim (fun eq => eq ▸ here) (real t)⟩

/-- One token is taken by a step. -/
theorem one_iff : Took c [t] c' ↔ t.kind ≠ .endOfInput ∧ c.next = t ∧ c' = c.step := by
  rw [cons_iff, nil_iff]

/-- The extent of a node that begins with the first token and ends with the last. -/
theorem hull_eq (h : Took c (t :: ts) c') : hull (t :: ts) = ⟨t.span.start, c'.lastStop⟩ := by
  rw [hull, h.stop, stopAfter_cons]

end Took

namespace Lexeme

/-- A name without points is one word. -/
theorem dotted_of_plain {name : String} (hplain : '.' ∉ name.toList) :
    dotted name = [.name name.toList] := by
  rw [dotted, List.splitOn_eq_singleton hplain, dots, List.flatMap_nil]

/-- A further segment of a dotted name. -/
theorem dotted_append (name : String) {segment : String} (hplain : '.' ∉ segment.toList) :
    dotted (name ++ "." ++ segment) = dotted name ++ [mark .dot, .name segment.toList] := by
  have hsplit : (name ++ "." ++ segment).toList.splitOn '.'
      = name.toList.splitOn '.' ++ [segment.toList] := by
    rw [String.toList_append, String.toList_append, List.append_assoc,
      ← List.splitOn_eq_singleton hplain]
    exact List.splitOn_append_cons_self ..
  rw [dotted, dotted, hsplit]
  obtain ⟨n, ns, h⟩ := List.exists_cons_of_ne_nil (List.splitOn_ne_nil '.' name.toList)
  rw [h]
  simp [dots]

/-- The text of a dotted name is its segments with dots before them. -/
theorem toList_foldl_dot (segments : List Text) (name : String) :
    (segments.foldl (fun name segment => name ++ "." ++ String.ofList segment) name).toList =
      name.toList ++ segments.flatMap ('.' :: ·) := by
  induction segments generalizing name with
  | nil => simp
  | cons segment segments ih =>
      rw [List.foldl_cons, ih]
      simp

/-- Segments with dots between them have dots before all but the first. -/
theorem intercalate_dot (segment : Text) (segments : List Text) :
    ['.'].intercalate (segment :: segments) = segment ++ segments.flatMap ('.' :: ·) := by
  induction segments generalizing segment with
  | nil => simp
  | cons next segments ih =>
      rw [List.intercalate_cons_cons, ih]
      simp

/-- A dotted name is put together from its segments. -/
theorem exists_segments (path : String) : ∃ (first : Text) (segments : List Text),
    dotted path = .name first :: segments.flatMap (fun segment => [mark .dot, .name segment]) ∧
      segments.foldl (fun name segment => name ++ "." ++ String.ofList segment)
        (String.ofList first) = path := by
  obtain ⟨first, segments, hsplit⟩ :=
    List.exists_cons_of_ne_nil (List.splitOn_ne_nil '.' path.toList)
  refine ⟨first, segments, by rw [dotted, hsplit, dots], ?_⟩
  rw [← String.toList_inj, toList_foldl_dot, String.toList_ofList, ← intercalate_dot, ← hsplit,
    List.intercalate_splitOn]

end Lexeme

/-- Words of a row without children. -/
theorem Row.ofWords {R : Symbol → List Token → Tree → Prop} {ls : List Lexeme} {ts : List Token}
    (h : ts.map Token.lexeme = ls) : Row R (ls.map Part.word) ts none [] := by
  subst h
  induction ts with
  | nil => exact .nil
  | cons t ts ih => exact .word rfl ih

/-- A word after a row. -/
theorem Row.snoc {R : Symbol → List Token → Tree → Prop} {ps : List (Part Symbol)} {l : Lexeme}
    {t : Token} {ts : List Token} {own : Option Span} {cs : List Tree} (row : Row R ps ts own cs)
    (is : t.lexeme = l) : Row R (ps ++ [Part.word l]) (ts ++ [t]) own cs := by
  simpa using row.append (.word is .nil)

/-- A row of one child. -/
theorem Row.one {R : Symbol → List Token → Tree → Prop} {s : Symbol} {ts : List Token} {t : Tree}
    (h : R s ts t) : Row R [.child s] ts none [t] := by
  have row := Row.child h .nil
  rwa [List.append_nil] at row

/-- The first token and the last give the extent of a node. -/
theorem Took.derives {c c' : Cursor} {t : Token} {ts : List Token} {s : Symbol} {k : Kind}
    {ss : List Symbol} {own : Option Span} {cs : List Tree} (took : Took c (t :: ts) c')
    (rule : Rule s k ss) (row : Row Derives (k.phrase ss) (t :: ts) own cs) :
    Derives s (t :: ts) (.node ⟨k, ⟨t.span.start, c'.lastStop⟩, own, false, none⟩ cs) := by
  rw [← took.hull_eq]
  exact .node rule row

/-- The same if the extent begins where the next token does. -/
theorem Took.derives_next {c c' : Cursor} {ts : List Token} {s : Symbol} {k : Kind}
    {ss : List Symbol} {own : Option Span} {cs : List Tree} (took : Took c ts c') (hne : ts ≠ [])
    (rule : Rule s k ss) (row : Row Derives (k.phrase ss) ts own cs) :
    Derives s ts (.node ⟨k, ⟨c.next.span.start, c'.lastStop⟩, own, false, none⟩ cs) := by
  obtain ⟨t, ts, rfl⟩ := List.exists_cons_of_ne_nil hne
  rw [(Took.cons_iff.mp took).2.1]
  exact took.derives rule row

/-- What is left of orderly tokens is orderly. -/
theorem Took.orderly {c c' : Cursor} {ts : List Token} (took : Took c ts c')
    (h : Orderly c.rest) : Orderly c'.rest := by
  rw [took.rest] at h
  exact h.right

/-- Tokens that are taken from orderly ones are well spelled. -/
theorem Took.spelled {c c' : Cursor} {ts : List Token} (took : Took c ts c')
    (h : Orderly c.rest) : ∀ t ∈ ts, t.lexeme.WellSpelled := by
  intro t ht
  exact h.spelled t (by rw [took.rest]; exact List.mem_append_left _ ht) (took.real t ht)

/-- The extents of the first and the last of three parts cover the extent of them all. -/
theorem hull_cover {ts us : List Token} (mid : List Token) (hts : ts ≠ []) (hus : us ≠ [])
    (horderly : Orderly (ts ++ (mid ++ us))) :
    (hull ts).cover (hull us) = hull (ts ++ (mid ++ us)) := by
  obtain ⟨t, ts, rfl⟩ := List.exists_cons_of_ne_nil hts
  obtain ⟨u, us, rfl⟩ := List.exists_cons_of_ne_nil hus
  have hlast (before : Token) (more : List Token) :
      ∃ last ∈ before :: more, stopAfter before.span.stop more = last.span.stop := by
    induction more generalizing before with
    | nil => exact ⟨before, List.mem_cons_self, rfl⟩
    | cons next more ih =>
        obtain ⟨last, hmem, hstop⟩ := ih next
        exact ⟨last, List.mem_cons_of_mem _ hmem, hstop⟩
  have hbefore := (List.pairwise_append.mp horderly.ascending).2.2
  have hstart := (hbefore t List.mem_cons_self u (by simp)).1
  obtain ⟨x, hx, hxstop⟩ := hlast t ts
  obtain ⟨y, hy, hystop⟩ := hlast u us
  have hstop := (hbefore x hx y (List.mem_append_right mid hy)).2
  have hend : stopAfter t.span.stop (ts ++ (mid ++ u :: us)) = stopAfter u.span.stop us := by
    rw [stopAfter_append, stopAfter_append, stopAfter_cons]
  rw [List.cons_append, hull, hull, hull, hend, Span.cover, hxstop, hystop, min_eq_left hstart,
    max_eq_right hstop]

/-- The extent of a derived tree is that of its tokens. -/
theorem Derives.span_eq {s : Symbol} {ts : List Token} {t : Tree} (h : Derives s ts t) :
    t.span = hull ts := by
  cases h
  rfl

/-- An expression binds as tightly as a level if it binds tighter. -/
theorem Derives.weaken {level q : Nat} {ts : List Token} {t : Tree} (h : Derives (.expression q) ts t)
    (hle : level ≤ q) : Derives (.expression level) ts t := by
  obtain ⟨rule, row⟩ := h
  refine .node ?_ row
  cases rule with
  | assignment op =>
      obtain rfl : level = 0 := Nat.le_zero.mp hle
      exact .assignment op
  | binary op reached => exact .binary op (hle.trans reached)
  | prefixUnary op reached => exact .prefixUnary op (hle.trans reached)
  | postfixUnary step reached => exact .postfixUnary step (hle.trans reached)
  | identifier name reached => exact .identifier name (hle.trans reached)
  | literal value reached => exact .literal value (hle.trans reached)
  | parenthesized reached => exact .parenthesized (hle.trans reached)
  | invocation callee args reached => exact .invocation callee args (hle.trans reached)

namespace Parser

variable {α β : Type} {c c' : Cursor}

/-- A parser that goes on reads what its second part reads after the first. -/
theorem bind_ok {p : Parser α} {f : α → Parser β} {b : β} :
    (p >>= f) c = .ok (b, c') ↔ ∃ a c'', p c = .ok (a, c'') ∧ f a c'' = .ok (b, c') := by
  show (p c >>= fun r => f r.1 r.2) = _ ↔ _
  rcases p c with e | ⟨a, c''⟩
  · simp [bind, Except.bind]
  · simp [bind, Except.bind]

theorem pure_ok {a b : α} : (pure a : Parser α) c = .ok (b, c') ↔ b = a ∧ c' = c := by
  show (Except.ok (a, c) : Except (Nat × ParseCause) (α × Cursor)) = .ok (b, c') ↔ _
  simp [eq_comm]

theorem peek_bind (f : Token → Parser α) : (peek >>= f) c = f c.next c := rfl

theorem peekSecond_bind (f : Token → Parser α) : (peekSecond >>= f) c = f c.second c := rfl

/-- Asking for the class of the next token tells it. -/
theorem at?_bind (k : TokenKind) (f : Bool → Parser α) :
    (at? k >>= f) c = f (decide (c.next.kind = k)) c := rfl

theorem take_bind (f : Token → Parser α) : (take >>= f) c = f c.next c.step := rfl

/-- Taking a token and dropping it goes on behind it. -/
theorem discard_take_bind (f : PUnit → Parser α) :
    (discard take >>= f) c = f ⟨⟩ c.step := rfl

theorem take_ok {t : Token} : take c = .ok (t, c') ↔ t = c.next ∧ c' = c.step := by
  simp [take, eq_comm]

theorem refuse_ok {e : Expected} {a : α} : refuse e c = .ok (a, c') ↔ False := by
  simp [refuse]

/-- Dropping a result reads as much. -/
theorem discard_ok {p : Parser α} {u : PUnit} :
    (discard p : Parser PUnit) c = .ok (u, c') ↔ ∃ a, p c = .ok (a, c') := by
  show (p >>= fun _ => pure ()) c = _ ↔ _
  simp only [bind_ok, pure_ok]
  constructor
  · rintro ⟨a, c'', h, -, rfl⟩
    exact ⟨a, h⟩
  · rintro ⟨a, h⟩
    exact ⟨a, c', h, trivial, rfl⟩

/-- A node is made from its start to the last token that was read. -/
theorem nodeFrom_ok {start : Nat} {k : Kind} {own : Option Span} {cs : List Tree} {t : Tree} :
    nodeFrom start k own cs c = .ok (t, c') ↔
      t = .node ⟨k, ⟨start, c.lastStop⟩, own, false, none⟩ cs ∧ c' = c := by
  simp only [nodeFrom, lastStop, bind_ok, pure_ok, Except.ok.injEq, Prod.mk.injEq]
  constructor
  · rintro ⟨_, _, ⟨rfl, rfl⟩, rfl, rfl⟩
    exact ⟨rfl, rfl⟩
  · rintro ⟨rfl, rfl⟩
    exact ⟨_, _, ⟨rfl, rfl⟩, rfl, rfl⟩

/-- The next token, if it is not the end of the input, is taken by a step. -/
theorem took_next {k : TokenKind} (h : c.next.kind = k) (real : k ≠ .endOfInput) :
    Took c [c.next] c.step :=
  Took.one_iff.mpr ⟨h ▸ real, rfl, rfl⟩

/-- A reader that looks at the kind of the next token before it takes it. -/
theorem next_and_step {k : TokenKind} {t : Token} (real : k ≠ .endOfInput) :
    c.next.kind = k ∧ t = c.next ∧ c' = c.step ↔ t.kind = k ∧ Took c [t] c' := by
  constructor
  · rintro ⟨h, rfl, rfl⟩
    exact ⟨h, took_next h real⟩
  · rintro ⟨h, took⟩
    obtain ⟨-, next, step⟩ := Took.one_iff.mp took
    exact ⟨next ▸ h, next.symm, step⟩

/-- A token is expected successfully if it is the next. -/
theorem expect_ok {k : TokenKind} {e : Expected} {t : Token} (real : k ≠ .endOfInput) :
    expect k e c = .ok (t, c') ↔ t.kind = k ∧ Took c [t] c' := by
  rw [← next_and_step real, expect, at?_bind]
  by_cases h : c.next.kind = k
  · simp [h, take_ok]
  · simp [h, refuse_ok]

/-- The name of a token is its text. -/
theorem nameOf_toList (t : Token) : (nameOf t).toList = t.text := String.toList_ofList

/-- A mark is read if it is the next token. -/
theorem mark_ok {m : Mark} {t : Token} :
    mark m c = .ok (t, c') ↔ t.kind = .mark m ∧ Took c [t] c' :=
  expect_ok nofun

/-- A keyword is read if it is the next token. -/
theorem keyword_ok {k : Keyword} {t : Token} :
    keyword k c = .ok (t, c') ↔ t.kind = .keyword k ∧ Took c [t] c' :=
  expect_ok nofun

/-- An identifier is read if it is the next token. -/
theorem identifier_ok {t : Token} :
    identifier c = .ok (t, c') ↔ t.kind = .identifier ∧ Took c [t] c' :=
  expect_ok nofun

/-- A token is accepted if it is the next, and otherwise left. -/
theorem accept_ok {k : TokenKind} {b : Bool} (real : k ≠ .endOfInput) :
    accept k c = .ok (b, c') ↔
      (b = true ∧ ∃ t : Token, t.kind = k ∧ Took c [t] c') ∨
        (b = false ∧ c.next.kind ≠ k ∧ c' = c) := by
  simp only [← next_and_step real, accept, at?_bind]
  by_cases h : c.next.kind = k
  · simp only [h, decide_true, if_true, discard_take_bind, pure_ok]
    simp
  · simp only [h, decide_false, Bool.false_eq_true, if_false, pure_ok]
    simp [h]

/-- The types of values are those with a keyword, apart from `void`. -/
theorem valueType?_eq_some {k : TokenKind} {type : TypeName} :
    valueType? k = some type ↔ k = .keyword (.typeName type) ∧ type ≠ .void := by
  unfold valueType?
  split <;> aesop

/-- An assignment operator is known by its mark. -/
theorem assignOp?_eq_some {k : TokenKind} {op : AssignOp} :
    assignOp? k = some op ↔ k = .mark op.mark := by
  cases k with
  | mark m => cases m <;> cases op <;> simp [assignOp?, Mark.assignOp?, AssignOp.mark]
  | _ => simp [assignOp?]

/-- A binary operator is known by its mark. -/
theorem binaryOp?_eq_some {k : TokenKind} {op : BinaryOp} :
    binaryOp? k = some op ↔ k = .mark op.mark := by
  cases k with
  | mark m => cases m <;> cases op <;> simp [binaryOp?, Mark.binaryOp?, BinaryOp.mark]
  | _ => simp [binaryOp?]

/-- A prefix operator is known by its mark. -/
theorem prefixOp?_eq_some {k : TokenKind} {op : UnaryOp} :
    prefixOp? k = some op ↔ k = .mark op.mark := by
  cases k with
  | mark m => cases m <;> cases op <;> simp [prefixOp?, Mark.prefixOp?, UnaryOp.mark]
  | _ => simp [prefixOp?]

/-- A postfix operator is known by its mark, and is a step. -/
theorem postfixOp?_eq_some {k : TokenKind} {op : UnaryOp} :
    postfixOp? k = some op ↔ k = .mark op.mark ∧ op.isStep := by
  cases k with
  | mark m =>
      cases m <;> cases op <;> simp [postfixOp?, Mark.postfixOp?, UnaryOp.mark, UnaryOp.isStep]
  | _ => simp [postfixOp?]

/-- The next token is no operator that binds as tightly as a level. -/
def Looser (level : Nat) (c : Cursor) : Prop :=
  ∀ op : BinaryOp, c.next.kind = .mark op.mark → op.precedence < level

/-- The type of a value is read if its keyword is the next token. -/
theorem valueType_ok {type : TypeName} :
    valueType c = .ok (type, c') ↔
      type ≠ .void ∧ ∃ t : Token, t.kind = .keyword (.typeName type) ∧ Took c [t] c' := by
  simp only [← next_and_step (k := .keyword (.typeName type)) nofun, valueType, peek_bind]
  cases h : valueType? c.next.kind with
  | none =>
      refine ⟨fun h => (refuse_ok.mp h).elim, ?_⟩
      rintro ⟨value, _, kind, -⟩
      rw [valueType?_eq_some.mpr ⟨kind, value⟩] at h
      cases h
  | some found =>
      obtain ⟨kind, value⟩ := valueType?_eq_some.mp h
      simp only [discard_take_bind, pure_ok]
      constructor
      · rintro ⟨rfl, rfl⟩
        exact ⟨value, _, kind, rfl, rfl⟩
      · rintro ⟨_, _, kind', rfl, rfl⟩
        obtain ⟨rfl⟩ : found = type := by simpa [kind] using kind'
        exact ⟨rfl, rfl⟩

/-- The type of a member is read if its keyword is the next token. -/
theorem memberType_ok {type : TypeName} :
    memberType c = .ok (type, c') ↔
      ∃ t : Token, t.kind = .keyword (.typeName type) ∧ Took c [t] c' := by
  simp only [memberType, bind_ok, accept_ok (k := .keyword (.typeName .void)) nofun]
  constructor
  · rintro ⟨b, c'', ⟨rfl, t, kind, took⟩ | ⟨rfl, other, rfl⟩, h⟩
    · obtain ⟨rfl, rfl⟩ := pure_ok.mp h
      exact ⟨t, kind, took⟩
    · exact (valueType_ok.mp h).2
  · rintro ⟨t, kind, took⟩
    by_cases void : type = .void
    · subst void
      exact ⟨true, c', .inl ⟨rfl, t, kind, took⟩, pure_ok.mpr ⟨rfl, rfl⟩⟩
    · refine ⟨false, c, .inr ⟨rfl, ?_, rfl⟩, valueType_ok.mpr ⟨void, t, kind, took⟩⟩
      rw [(Took.one_iff.mp took).2.1, kind]
      simpa using void

end Parser

/-- A document is read from the tokens of its source. -/
theorem parse_eq_ok {source : Text} {d : Document} :
    parse source = .ok d ↔ d.source = .ofText source ∧ ∃ tokens c,
      tokenize source = .ok tokens ∧
        Parser.compilationUnit (Parser.depthPerToken * (tokens.length + 1)) (Text.width source)
          ⟨0, tokens⟩ = .ok (d.tree, c) := by
  rw [parse]
  cases tokenize source with
  | error e => simp [bind, Except.bind]
  | ok tokens =>
      simp only [bind, Except.bind, StateT.run]
      rcases hunit : Parser.compilationUnit (Parser.depthPerToken * (tokens.length + 1))
        (Text.width source) ⟨0, tokens⟩ with ⟨offset, cause⟩ | ⟨tree, c⟩
      · simp [throw, throwThe, MonadExceptOf.throw, hunit]
      · constructor
        · intro h
          cases h
          exact ⟨rfl, tokens, c, rfl, hunit⟩
        · rintro ⟨hsource, tokens', c', htokens, hunit'⟩
          cases htokens
          cases hunit.symm.trans hunit'
          rw [← hsource]
          rfl

end SharpMutants
