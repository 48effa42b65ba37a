import SharpMutants.Proofs.Completeness.Statements

/-!
# What derives a source is read as it

The readers of members, classes and namespaces.  A parenthesis after the first name
of a member tells a method from a field, since no declarator has one there.
-/

namespace SharpMutants

namespace Parser

variable {c c' : Cursor} {t : Tree} {ts : List Token}

/-! ## Names and modifiers -/

/-- A dotted name is read to its end. -/
theorem qualifiedName_answers {n : Nat} {path : String} (took : Took c ts c')
    (hpath : ts.map Token.lexeme = Lexeme.dotted path) (hafter : c'.next.kind ≠ .mark .dot)
    (hn : ts.length ≤ n) : qualifiedName n c = .ok (path, c') := by
  obtain ⟨first, segments, hdotted, hjoined⟩ := Lexeme.exists_segments path
  rw [hdotted] at hpath
  obtain ⟨name, us, rfl, hname, hsegments⟩ := List.map_eq_cons_iff.mp hpath
  obtain ⟨c₁, took₁, took₂⟩ := took.split [name]
  have hkind : name.kind = .identifier := congrArg Lexeme.kind hname
  have htext : name.text = first := congrArg Lexeme.text hname
  rw [qualifiedName, bind_eq (identifier_ok.mpr ⟨hkind, took₁⟩),
    dottedName_eq took₂ hsegments hafter (by rwa [List.length_cons] at hn), nameOf, htext, hjoined]

/-- Modifiers are read up to what is none. -/
theorem modifiers_answers {n : Nat} {ms : List Modifier} (took : Took c ts c')
    (hms : ts.map Token.lexeme = ms.map fun m => .keyword (.modifier m))
    (hafter : ∀ m, c'.next.kind ≠ .keyword (.modifier m)) (hn : ts.length ≤ n) :
    modifiers n c = .ok (ms, c') := by
  induction ms generalizing c ts n with
  | nil =>
      obtain rfl : ts = [] := by simpa using hms
      obtain rfl := Took.nil_iff.mp took
      cases n with
      | zero => rfl
      | succ n =>
          rw [modifiers, peek_bind]
          generalize c'.next.kind = kind at hafter
          cases kind with
          | keyword k =>
              cases k with
              | modifier m => exact absurd rfl (hafter m)
              | _ => rfl
          | _ => rfl
  | cons m ms ih =>
      obtain ⟨word, us, rfl, hword, hrest⟩ := List.map_eq_cons_iff.mp hms
      rw [List.length_cons] at hn
      obtain ⟨n, rfl⟩ : ∃ n', n = n' + 1 := ⟨n - 1, by omega⟩
      obtain ⟨-, rfl, took₁⟩ := Took.cons_iff.mp took
      have hkind : c.next.kind = .keyword (.modifier m) := congrArg Lexeme.kind hword
      rw [modifiers, peek_bind, hkind]
      simp only [discard_take_bind]
      rw [bind_eq (ih took₁ hrest (by omega))]
      rfl

/-- The words of the modifiers of a row. -/
theorem modifiers_inv {R : Symbol → List Token → Tree → Prop} {ms : List Modifier}
    {own : Option Span} {cs : List Tree} (row : Row R (Part.modifiers ms) ts own cs) :
    (ts.map Token.lexeme = ms.map fun m => .keyword (.modifier m)) ∧ own = none ∧ cs = [] := by
  refine Row.words_inv (R := R) ?_
  rwa [List.map_map]

/-- A modifier comes first if there is one. -/
theorem modifiers_start {R : Symbol → List Token → Tree → Prop} {ms : List Modifier}
    {ps : List (Part Symbol)} {own : Option Span} {cs : List Tree}
    (row : Row R (Part.modifiers ms ++ ps) ts own cs) :
    (∃ u us m, ts = u :: us ∧ u.kind = .keyword (.modifier m)) ∨ Row R ps ts own cs := by
  cases ms with
  | nil => exact .inr row
  | cons m ms =>
      obtain ⟨word, us, rfl, hword, -⟩ := row.word_inv
      exact .inl ⟨word, us, m, rfl, congrArg Lexeme.kind hword⟩

/-! ## Members -/

/-- A parameter is read, and then what follows it in its list. -/
theorem parameter_answers {n : Nat} (h : Derives .parameter ts t) (took : Took c ts c') :
    parameters (n + 1) c = andMore t (parameters n) c' := by
  obtain ⟨rule, row⟩ := h
  cases rule with
  | parameter name hvalue =>
      obtain ⟨word, _, rfl, hword, row₁⟩ := row.word_inv
      obtain ⟨ident, _, rfl, hident, row₂⟩ := row₁.word_inv
      obtain ⟨rfl, rfl, rfl⟩ := row₂.nil_inv
      obtain ⟨c₁, took₁, took₂⟩ := took.split [word]
      have hwordKind : word.kind = .keyword (.typeName _) := congrArg Lexeme.kind hword
      have hidentKind : ident.kind = .identifier := congrArg Lexeme.kind hident
      rw [parameters, peek_bind, bind_eq (valueType_ok.mpr ⟨hvalue, word, hwordKind, took₁⟩),
        bind_eq (identifier_ok.mpr ⟨hidentKind, took₂⟩), nameOf_eq hident,
        bind_eq (nodeFrom_next took (by simp))]

/-- The parameters of a method, with the token that closes them. -/
theorem parameters_answers {m n : Nat} {own : Option Span} {cs : List Tree}
    (row : Row Derives (Part.commas (.replicate m .parameter)) ts own cs)
    (horderly : Orderly c.rest) (took : Took c ts c')
    (hafter : c'.next.kind = .mark .closeParen) (hn : 16 * ts.length + 5 ≤ n) :
    unlessAt (.mark .closeParen) (parameters n) c = .ok (cs, c') ∧ own = none := by
  refine elements_answers (by nofun) ?_ (fun _ _ _ _ _ h _ took _ _ => parameter_answers h took)
    row horderly took hafter hn
  rintro us t ⟨rule, row⟩
  cases rule with
  | parameter name hvalue =>
      obtain ⟨word, vs, rfl, hword, -⟩ := row.word_inv
      have hkind : word.kind = .keyword (.typeName _) := congrArg Lexeme.kind hword
      exact ⟨word, vs, rfl, by rw [hkind]; nofun⟩

/-- What comes after modifiers is none. -/
theorem modifiers_answers_of_lexeme {n : Nat} {ms : List Modifier} {next : Token} {c₁ : Cursor}
    {l : Lexeme} (took : Took c ts c') (tookNext : Took c' [next] c₁)
    (hms : ts.map Token.lexeme = ms.map fun m => .keyword (.modifier m)) (hnext : next.lexeme = l)
    (hl : ∀ m, l.kind ≠ .keyword (.modifier m)) (hn : ts.length ≤ n) :
    modifiers n c = .ok (ms, c') := by
  refine modifiers_answers took hms (fun m => ?_) hn
  rw [(Took.one_iff.mp tookNext).2.1]
  subst hnext
  exact hl m

/-- **A method is read as its tree.** -/
theorem methodDecl_answers {n m : Nat} {name : String} {ms : List Modifier} {type : TypeName}
    {own : Option Span} {cs : List Tree}
    (row : Row Derives
      ((Kind.methodDecl name ms type).phrase (.replicate m Symbol.parameter ++ [Symbol.body])) ts own cs)
    (horderly : Orderly c.rest) (took : Took c ts c') (hn : 16 * ts.length + 5 ≤ n) :
    member n c = .ok (.node ⟨.methodDecl name ms type, hull ts, own, false, none⟩ cs, c') := by
  have hphrase : (Kind.methodDecl name ms type).phrase (List.replicate m Symbol.parameter ++ [Symbol.body]) =
      Part.modifiers ms ++ Part.word (.keyword (.typeName type)) :: Part.word (.name name.toList) ::
        Part.word (.mark .openParen) :: (Part.commas (List.replicate m Symbol.parameter) ++
          [Part.word (.mark .closeParen), Part.child Symbol.body]) := by
    simp [Kind.phrase]
  rw [hphrase] at row
  obtain ⟨ls, _, _, _, _, _, rfl, rfl, rfl, words, row₁⟩ := row.append_inv
  obtain ⟨hls, rfl, rfl⟩ := modifiers_inv words
  obtain ⟨typeToken, _, rfl, htype, row₂⟩ := row₁.word_inv
  obtain ⟨ident, _, rfl, hident, row₃⟩ := row₂.word_inv
  obtain ⟨open_, _, rfl, hopen, row₄⟩ := row₃.word_inv
  obtain ⟨us, _, _, _, ps, _, rfl, rfl, rfl, hps, row₅⟩ := row₄.append_inv
  obtain ⟨close, _, rfl, hclose, row₆⟩ := row₅.word_inv
  obtain ⟨vs, _, body, _, rfl, rfl, hbody, row₇⟩ := row₆.child_inv
  obtain ⟨rfl, rfl, rfl⟩ := row₇.nil_inv
  simp only [List.append_nil] at took hn ⊢
  simp only [List.length_cons, List.length_append] at hn
  obtain ⟨c₁, took₁, tookRest⟩ := took.split _
  obtain ⟨c₂, took₂, tookRest⟩ := tookRest.split [typeToken]
  have hsecond : c₂.second = open_ := by rw [Cursor.second, tookRest.rest]; rfl
  obtain ⟨c₃, took₃, tookRest⟩ := tookRest.split [ident]
  obtain ⟨c₄, took₄, tookRest⟩ := tookRest.split [open_]
  obtain ⟨c₅, took₅, tookRest⟩ := tookRest.split _
  obtain ⟨c₆, took₆, took₇⟩ := tookRest.split [close]
  have htypeKind : typeToken.kind = .keyword (.typeName type) := congrArg Lexeme.kind htype
  have hidentKind : ident.kind = .identifier := congrArg Lexeme.kind hident
  have hopenKind : open_.kind = .mark .openParen := congrArg Lexeme.kind hopen
  have hcloseKind : close.kind = .mark .closeParen := congrArg Lexeme.kind hclose
  have hnext : c₂.next.kind = .identifier := by rw [(Took.one_iff.mp took₃).2.1, hidentKind]
  have hnextClose : c₅.next.kind = .mark .closeParen := by
    rw [(Took.one_iff.mp took₆).2.1, hcloseKind]
  have horderly₄ := took₄.orderly (took₃.orderly (took₂.orderly (took₁.orderly horderly)))
  have hmodifiers : modifiers n c = .ok (ms, c₁) :=
    modifiers_answers_of_lexeme took₁ took₂ hls htype (by simp [Lexeme.keyword]) (by omega)
  obtain ⟨hparameters, rfl⟩ := parameters_answers hps horderly₄ took₅ hnextClose (n := n) (by omega)
  have hblock : block n c₆ = .ok (body, c') :=
    answersStatement hbody (took₆.orderly (took₅.orderly horderly₄)) took₇ (by omega)
  have hmethod : ((decide (c₂.next.kind = .identifier)) &&
      decide (c₂.second.kind = .mark .openParen)) = true := by
    rw [hnext, hsecond, hopenKind]
    rfl
  rw [member, peek_bind, bind_eq hmodifiers, peek_bind,
    bind_eq (memberType_ok.mpr ⟨typeToken, htypeKind, took₂⟩), at?_bind, peekSecond_bind,
    if_pos hmethod, methodRest, bind_eq (identifier_ok.mpr ⟨hidentKind, took₃⟩), nameOf_eq hident,
    discard_bind_eq (mark_ok.mpr ⟨hopenKind, took₄⟩), bind_eq hparameters,
    discard_bind_eq (mark_ok.mpr ⟨hcloseKind, took₆⟩), bind_eq hblock]
  simpa using nodeFrom_next took (by simp)

/-- No parenthesis comes after the name of a declarator. -/
theorem declarator_second {x : Token} {xs : List Token} (h : Derives .variableDeclarator ts t)
    (hx : x.kind ≠ .mark .openParen) : ∃ name next rest,
      ts ++ x :: xs = name :: next :: rest ∧ next.kind ≠ .mark .openParen := by
  obtain ⟨rule, row⟩ := h
  cases rule with
  | uninitialized name =>
      obtain ⟨word, _, _, rfl, -, -, row₁⟩ := row.own_inv
      obtain ⟨rfl, -, -⟩ := row₁.nil_inv
      exact ⟨word, x, xs, rfl, hx⟩
  | initialized name =>
      obtain ⟨word, _, _, rfl, -, -, row₁⟩ := row.own_inv
      obtain ⟨eq, us, rfl, heq, -⟩ := row₁.word_inv
      have hkind : eq.kind = .mark .eq := congrArg Lexeme.kind heq
      exact ⟨word, eq, us ++ x :: xs, rfl, by rw [hkind]; nofun⟩

/-- No parenthesis comes after the first name of a variable declaration. -/
theorem variableDeclaration_second {last : Token} (h : Derives .variableDeclaration ts t)
    (hlast : last.kind = .mark .semicolon) : ∃ type name next rest,
      ts ++ [last] = type :: name :: next :: rest ∧
        (∃ typeName, typeName ≠ .void ∧ type.lexeme = .keyword (.typeName typeName)) ∧
          next.kind ≠ .mark .openParen := by
  obtain ⟨rule, row⟩ := h
  cases rule with
  | variableDeclaration hvalue more =>
      obtain ⟨word, us, rfl, hword, row₁⟩ := row.word_inv
      obtain ⟨name, next, rest, heq, hnext⟩ : ∃ name next rest,
          us ++ [last] = name :: next :: rest ∧ next.kind ≠ .mark .openParen := by
        cases more with
        | zero =>
            obtain ⟨vs, _, _, _, rfl, -, here, row₂⟩ := row₁.child_inv
            obtain ⟨rfl, -, -⟩ := row₂.nil_inv
            rw [List.append_nil]
            exact declarator_second here (by rw [hlast]; nofun)
        | succ more =>
            obtain ⟨vs, _, _, _, rfl, -, here, row₂⟩ := row₁.child_inv
            obtain ⟨comma, ws, rfl, hcomma, -⟩ := row₂.word_inv
            have hkind : comma.kind = .mark .comma := congrArg Lexeme.kind hcomma
            rw [List.append_assoc]
            exact declarator_second here (by rw [hkind]; nofun)
      exact ⟨word, name, next, rest, by rw [List.cons_append, heq], ⟨_, hvalue, hword⟩, hnext⟩

/-- **A field is read as its tree.** -/
theorem fieldDecl_answers {n : Nat} {ms : List Modifier} {own : Option Span} {cs : List Tree}
    (row : Row Derives ((Kind.fieldDecl ms).phrase [Symbol.variableDeclaration]) ts own cs)
    (horderly : Orderly c.rest) (took : Took c ts c') (hn : 16 * ts.length + 5 ≤ n) :
    member n c = .ok (.node ⟨.fieldDecl ms, hull ts, own, false, none⟩ cs, c') := by
  obtain ⟨ls, _, _, _, _, _, rfl, rfl, rfl, words, row₁⟩ := row.append_inv
  obtain ⟨hls, rfl, rfl⟩ := modifiers_inv words
  obtain ⟨us, _, declaration, _, rfl, rfl, hdeclaration, row₂⟩ := row₁.child_inv
  obtain ⟨last, _, rfl, hlast, row₃⟩ := row₂.word_inv
  obtain ⟨rfl, rfl, rfl⟩ := row₃.nil_inv
  simp only [List.length_cons, List.length_append, List.length_nil] at hn
  have hlastKind : last.kind = .mark .semicolon := congrArg Lexeme.kind hlast
  obtain ⟨c₁, took₁, tookRest⟩ := took.split _
  obtain ⟨type, name, next, rest, heq, ⟨typeName, hvalue, htype⟩, hnext⟩ :=
    variableDeclaration_second hdeclaration hlastKind
  obtain ⟨c₂, took₂, took₃⟩ := tookRest.split _
  have horderly₁ := took₁.orderly horderly
  have hnextLast : c₂.next.kind = .mark .semicolon := by
    rw [(Took.one_iff.mp took₃).2.1, hlastKind]
  obtain ⟨found, hfound, hread⟩ := variableDeclaration_answers hdeclaration horderly₁ took₂
    hnextLast (n := n) (by omega)
  rw [heq] at tookRest
  obtain ⟨c₃, tookType, tookName⟩ := tookRest.split [type]
  obtain ⟨-, rfl, rfl⟩ := Took.one_iff.mp tookType
  have htypeKind : c₁.next.kind = .keyword (.typeName typeName) := congrArg Lexeme.kind htype
  obtain ⟨hkind, -⟩ := valueType?_eq_some.mp hfound
  obtain rfl : typeName = found := by simpa [htypeKind] using hkind
  have hsecond : c₁.step.second = next := by rw [Cursor.second, tookName.rest]; rfl
  have hmodifiers : modifiers n c = .ok (ms, c₁) :=
    modifiers_answers_of_lexeme took₁ tookType hls htype (by nofun) (by omega)
  rw [member, peek_bind, bind_eq hmodifiers, peek_bind,
    bind_eq (memberType_ok.mpr ⟨c₁.next, htypeKind, tookType⟩), at?_bind, peekSecond_bind,
    if_neg (by simp [hsecond, hnext]), if_neg hvalue, fieldRest, bind_eq hread,
    discard_bind_eq (mark_ok.mpr ⟨hlastKind, took₃⟩)]
  simpa using nodeFrom_next took (by simp)

/-- The tokens of a member are read as it. -/
theorem member_answers {n : Nat} (h : Derives .member ts t) (horderly : Orderly c.rest)
    (took : Took c ts c') (hn : 16 * ts.length + 5 ≤ n) : member n c = .ok (t, c') := by
  obtain ⟨rule, row⟩ := h
  cases rule with
  | fieldDecl ms => exact fieldDecl_answers row horderly took hn
  | methodDecl name ms type parameters => exact methodDecl_answers row horderly took hn

/-! ## Classes, namespaces and the whole source -/

/-- A member begins with a keyword. -/
theorem member_start (h : Derives .member ts t) : ∃ u us, ts = u :: us ∧ ∃ k, u.kind = .keyword k := by
  obtain ⟨rule, row⟩ := h
  cases rule with
  | fieldDecl ms =>
      rcases modifiers_start row with ⟨u, us, m, rfl, hkind⟩ | row₁
      · exact ⟨u, us, rfl, _, hkind⟩
      · obtain ⟨us, vs, _, _, rfl, -, ⟨rule', row'⟩, -⟩ := row₁.child_inv
        cases rule' with
        | variableDeclaration hvalue more =>
            obtain ⟨word, us, rfl, hword, -⟩ := row'.word_inv
            exact ⟨word, us ++ vs, rfl, _, congrArg Lexeme.kind hword⟩
  | methodDecl name ms type parameters =>
      rcases modifiers_start row with ⟨u, us, m, rfl, hkind⟩ | row₁
      · exact ⟨u, us, rfl, _, hkind⟩
      · obtain ⟨word, us, rfl, hword, -⟩ := row₁.word_inv
        exact ⟨word, us, rfl, _, congrArg Lexeme.kind hword⟩

/-- **The members of a class** are read as their trees, up to the closing brace. -/
theorem members_answers {m n : Nat} {own : Option Span} {cs : List Tree}
    (row : Row Derives ((List.replicate m Symbol.member).map Part.child) ts own cs)
    (horderly : Orderly c.rest) (took : Took c ts c') (hafter : c'.next.kind = .mark .closeBrace)
    (hn : 16 * ts.length + 6 ≤ n) : members n c = .ok (cs, c') ∧ own = none :=
  series_answers (fun kind => ∃ k, kind = .keyword k) (fun _ => rfl)
    (fun _ _ h => member_start h) (by nofun)
    (fun _ _ _ _ _ h horderly took _ hn => member_answers h horderly took hn) row horderly took
    hafter hn

/-- The tokens of a class are read as it. -/
theorem classDecl_answers {n m : Nat} {name : String} {ms : List Modifier} {own : Option Span}
    {cs : List Tree}
    (row : Row Derives ((Kind.classDecl name ms).phrase (.replicate m Symbol.member)) ts own cs)
    (horderly : Orderly c.rest) (took : Took c ts c') (hn : 16 * ts.length + 5 ≤ n) :
    classDecl n c = .ok (.node ⟨.classDecl name ms, hull ts, own, false, none⟩ cs, c') := by
  obtain ⟨ls, _, _, _, _, _, rfl, rfl, rfl, words, row₁⟩ := row.append_inv
  obtain ⟨hls, rfl, rfl⟩ := modifiers_inv words
  obtain ⟨word, _, rfl, hword, row₂⟩ := row₁.word_inv
  obtain ⟨ident, _, rfl, hident, row₃⟩ := row₂.word_inv
  obtain ⟨open_, _, rfl, hopen, row₄⟩ := row₃.word_inv
  obtain ⟨us, _, _, _, ds, _, rfl, rfl, rfl, series, row₅⟩ := row₄.append_inv
  obtain ⟨close, _, rfl, hclose, row₆⟩ := row₅.word_inv
  obtain ⟨rfl, rfl, rfl⟩ := row₆.nil_inv
  simp only [List.length_cons, List.length_append, List.length_nil] at hn
  obtain ⟨c₁, took₁, tookRest⟩ := took.split _
  obtain ⟨c₂, took₂, tookRest⟩ := tookRest.split [word]
  obtain ⟨c₃, took₃, tookRest⟩ := tookRest.split [ident]
  obtain ⟨c₄, took₄, tookRest⟩ := tookRest.split [open_]
  obtain ⟨c₅, took₅, took₆⟩ := tookRest.split _
  obtain ⟨-, rfl, rfl⟩ := Took.one_iff.mp took₆
  have hwordKind : word.kind = .keyword .classWord := congrArg Lexeme.kind hword
  have hidentKind : ident.kind = .identifier := congrArg Lexeme.kind hident
  have hopenKind : open_.kind = .mark .openBrace := congrArg Lexeme.kind hopen
  have hcloseKind : c₅.next.kind = .mark .closeBrace := congrArg Lexeme.kind hclose
  have horderly₄ := took₄.orderly (took₃.orderly (took₂.orderly (took₁.orderly horderly)))
  have hmodifiers : modifiers n c = .ok (ms, c₁) :=
    modifiers_answers_of_lexeme took₁ took₂ hls hword (by nofun) (by omega)
  obtain ⟨hread, rfl⟩ := members_answers series horderly₄ took₅ hcloseKind (n := n) (by omega)
  rw [classDecl, peek_bind, bind_eq hmodifiers,
    discard_bind_eq (keyword_ok.mpr ⟨hwordKind, took₂⟩),
    bind_eq (identifier_ok.mpr ⟨hidentKind, took₃⟩), nameOf_eq hident,
    discard_bind_eq (mark_ok.mpr ⟨hopenKind, took₄⟩), bind_eq hread, discard_take_bind]
  simpa using nodeFrom_next took (by simp)

/-- A class begins with a keyword that begins no namespace. -/
theorem classDecl_start {m : Nat} {name : String} {ms : List Modifier} {own : Option Span}
    {cs : List Tree}
    (row : Row Derives ((Kind.classDecl name ms).phrase (.replicate m Symbol.member)) ts own cs) :
    ∃ u us k, ts = u :: us ∧ u.kind = .keyword k ∧ k ≠ .namespaceWord ∧ k ≠ .usingWord := by
  rcases modifiers_start row with ⟨u, us, m, rfl, hkind⟩ | row₁
  · exact ⟨u, us, _, rfl, hkind, nofun, nofun⟩
  · obtain ⟨word, us, rfl, hword, -⟩ := row₁.word_inv
    exact ⟨word, us, _, rfl, congrArg Lexeme.kind hword, nofun, nofun⟩

/-- **The classes of a namespace** are read as their trees, up to the closing brace. -/
theorem classes_answers {m n : Nat} {own : Option Span} {cs : List Tree}
    (row : Row Derives ((List.replicate m (Symbol.declaration true)).map Part.child) ts own cs)
    (horderly : Orderly c.rest) (took : Took c ts c') (hafter : c'.next.kind = .mark .closeBrace)
    (hn : 16 * ts.length + 6 ≤ n) : classes n c = .ok (cs, c') ∧ own = none := by
  refine series_answers (fun kind => ∃ k, kind = .keyword k) (fun _ => rfl) ?_ (by nofun)
    ?_ row horderly took hafter hn
  · rintro us t ⟨rule, row⟩
    cases rule with
    | classDecl inNamespace name ms members =>
        obtain ⟨u, us, k, rfl, hkind, -⟩ := classDecl_start row
        exact ⟨u, us, rfl, k, hkind⟩
  · rintro us t n c c' ⟨rule, row⟩ horderly took _ hn
    cases rule with
    | classDecl inNamespace name ms members => exact classDecl_answers row horderly took hn

/-- **A namespace is read as its tree.** -/
theorem namespaceDecl_answers {n m : Nat} {path : String} {own : Option Span} {cs : List Tree}
    (row : Row Derives
      ((Kind.namespaceDecl path).phrase (.replicate m (Symbol.declaration true))) ts own cs)
    (horderly : Orderly c.rest) (took : Took c ts c') (hn : 16 * ts.length + 5 ≤ n) :
    namespaceDecl n c = .ok (.node ⟨.namespaceDecl path, hull ts, own, false, none⟩ cs, c') := by
  obtain ⟨word, _, rfl, hword, row₁⟩ := row.word_inv
  obtain ⟨ls, _, _, _, _, _, rfl, rfl, rfl, words, row₂⟩ := row₁.append_inv
  obtain ⟨hls, rfl, rfl⟩ := words.words_inv
  obtain ⟨open_, _, rfl, hopen, row₃⟩ := row₂.word_inv
  obtain ⟨us, _, _, _, ds, _, rfl, rfl, rfl, series, row₄⟩ := row₃.append_inv
  obtain ⟨close, _, rfl, hclose, row₅⟩ := row₄.word_inv
  obtain ⟨rfl, rfl, rfl⟩ := row₅.nil_inv
  simp only [List.length_cons, List.length_append, List.length_nil] at hn
  obtain ⟨c₁, took₁, tookRest⟩ := took.split [word]
  obtain ⟨c₂, took₂, tookRest⟩ := tookRest.split _
  obtain ⟨c₃, took₃, tookRest⟩ := tookRest.split [open_]
  obtain ⟨c₄, took₄, took₅⟩ := tookRest.split _
  obtain ⟨-, rfl, rfl⟩ := Took.one_iff.mp took₅
  have hwordKind : word.kind = .keyword .namespaceWord := congrArg Lexeme.kind hword
  have hopenKind : open_.kind = .mark .openBrace := congrArg Lexeme.kind hopen
  have hcloseKind : c₄.next.kind = .mark .closeBrace := congrArg Lexeme.kind hclose
  have hnext : c₂.next.kind ≠ .mark .dot := by
    rw [(Took.one_iff.mp took₃).2.1, hopenKind]
    nofun
  have horderly₃ := took₃.orderly (took₂.orderly (took₁.orderly horderly))
  obtain ⟨hread, rfl⟩ := classes_answers series horderly₃ took₄ hcloseKind (n := n) (by omega)
  rw [namespaceDecl, bind_eq (keyword_ok.mpr ⟨hwordKind, took₁⟩),
    bind_eq (qualifiedName_answers took₂ hls hnext (by omega)),
    discard_bind_eq (mark_ok.mpr ⟨hopenKind, took₃⟩), bind_eq hread, discard_take_bind]
  simpa using nodeFrom_eq took

/-- The tokens of a class or a namespace are read as it. -/
theorem declaration_answers {n : Nat} (h : Derives (.declaration false) ts t)
    (horderly : Orderly c.rest) (took : Took c ts c') (hn : 16 * ts.length + 5 ≤ n) :
    declaration n c = .ok (t, c') ∧ c.next.kind ≠ .keyword .usingWord ∧
      c.next.kind ≠ .endOfInput := by
  obtain ⟨rule, row⟩ := h
  cases rule with
  | namespaceDecl path classes =>
      have hread := namespaceDecl_answers row horderly took hn
      obtain ⟨word, us, rfl, hword, -⟩ := row.word_inv
      have hkind : c.next.kind = .keyword .namespaceWord := by
        rw [(Took.cons_iff.mp took).2.1]
        exact congrArg Lexeme.kind hword
      rw [declaration, at?_bind, if_pos (by simpa using hkind), hkind]
      exact ⟨hread, by nofun, by nofun⟩
  | classDecl inNamespace name ms members =>
      have hread := classDecl_answers row horderly took hn
      obtain ⟨u, us, k, rfl, hkind, hnamespace, husing⟩ := classDecl_start row
      rw [declaration, at?_bind, (Took.cons_iff.mp took).2.1, hkind,
        if_neg (by simpa using hnamespace)]
      exact ⟨hread, by simpa using husing, by nofun⟩

/-- **The declarations of a unit** are read as their trees, up to the end of the input. -/
theorem declarations_answers {m n : Nat} {own : Option Span} {cs : List Tree}
    (row : Row Derives ((List.replicate m (Symbol.declaration false)).map Part.child) ts own cs)
    (horderly : Orderly c.rest) (took : Took c ts c') (hafter : c'.next.kind = .endOfInput)
    (hn : 16 * ts.length + 6 ≤ n) :
    declarations n c = .ok (cs, c') ∧ own = none ∧ c.next.kind ≠ .keyword .usingWord := by
  induction m generalizing n c ts cs with
  | zero =>
      obtain ⟨rfl, rfl, rfl⟩ := row.nil_inv
      obtain rfl := Took.nil_iff.mp took
      obtain ⟨n, rfl⟩ : ∃ n', n = n' + 1 := ⟨n - 1, by omega⟩
      rw [declarations, at?_bind, if_pos (by simpa using hafter), hafter]
      exact ⟨rfl, rfl, by nofun⟩
  | succ m ih =>
      obtain ⟨us, vs, t, ds, rfl, rfl, here, rest⟩ := row.child_inv
      obtain ⟨c₁, took₁, took₂⟩ := took.split _
      have hpos := List.length_pos_iff.mpr (here.ne_nil nofun)
      rw [List.length_append] at hn
      obtain ⟨n, rfl⟩ : ∃ n', n = n' + 1 := ⟨n - 1, by omega⟩
      obtain ⟨hread, husing, hend⟩ := declaration_answers here horderly took₁ (n := n) (by omega)
      obtain ⟨hmore, hown, -⟩ := ih rest (took₁.orderly horderly) took₂ (n := n) (by omega)
      refine ⟨?_, hown, husing⟩
      rw [declarations, at?_bind, if_neg (by simpa using hend), bind_eq hread, bind_eq hmore]
      rfl

/-- **The directives of a unit** are read as their trees. -/
theorem usings_answers {m n : Nat} {own : Option Span} {cs : List Tree}
    (row : Row Derives ((List.replicate m Symbol.usingDirective).map Part.child) ts own cs)
    (took : Took c ts c') (hafter : c'.next.kind ≠ .keyword .usingWord)
    (hn : 16 * ts.length ≤ n) : usings n c = .ok (cs, c') ∧ own = none := by
  induction m generalizing n c ts cs with
  | zero =>
      obtain ⟨rfl, rfl, rfl⟩ := row.nil_inv
      obtain rfl := Took.nil_iff.mp took
      cases n with
      | zero => exact ⟨rfl, rfl⟩
      | succ n =>
          rw [usings, at?_bind, if_neg (by simpa using hafter)]
          exact ⟨rfl, rfl⟩
  | succ m ih =>
      obtain ⟨us, vs, t, ds, rfl, rfl, ⟨rule, row'⟩, rest⟩ := row.child_inv
      cases rule with
      | usingDirective path =>
          obtain ⟨word, _, rfl, hword, row₁⟩ := row'.word_inv
          obtain ⟨ls, _, _, _, _, _, rfl, rfl, rfl, words, row₂⟩ := row₁.append_inv
          obtain ⟨hls, rfl, rfl⟩ := words.words_inv
          obtain ⟨last, _, rfl, hlast, row₃⟩ := row₂.word_inv
          obtain ⟨rfl, rfl, rfl⟩ := row₃.nil_inv
          simp only [List.length_cons, List.length_append, List.length_nil] at hn
          obtain ⟨n, rfl⟩ : ∃ n', n = n' + 1 := ⟨n - 1, by omega⟩
          obtain ⟨c₃, tookHere, took₄⟩ := took.split _
          obtain ⟨c₁, took₁, tookRest⟩ := tookHere.split [word]
          obtain ⟨-, rfl, rfl⟩ := Took.one_iff.mp took₁
          obtain ⟨c₂, took₂, took₃⟩ := tookRest.split _
          have hkind : c.next.kind = .keyword .usingWord := congrArg Lexeme.kind hword
          have hlastKind : last.kind = .mark .semicolon := congrArg Lexeme.kind hlast
          have hnext : c₂.next.kind ≠ .mark .dot := by
            rw [(Took.one_iff.mp took₃).2.1, hlastKind]
            nofun
          obtain ⟨hmore, hown⟩ := ih rest took₄ (n := n) (by omega)
          refine ⟨?_, hown⟩
          rw [usings, at?_bind, if_pos (by simpa using hkind)]
          simp only [take_bind]
          rw [bind_eq (qualifiedName_answers took₂ hls hnext (by omega)),
            discard_bind_eq (mark_ok.mpr ⟨hlastKind, took₃⟩), bind_eq (nodeFrom_eq tookHere),
            bind_eq hmore]
          rfl

/-- **Tokens that derive a source** are read as it, up to the end of the input. -/
theorem compilationUnit_answers {n : Nat} (width : Nat) {ss : List Symbol} {own : Option Span}
    {cs : List Tree} (rule : Rule .unit .compilationUnit ss)
    (row : Row Derives (Kind.compilationUnit.phrase ss) ts own cs) (horderly : Orderly c.rest)
    (took : Took c ts c') (hafter : c'.next.kind = .endOfInput) (hn : 16 * ts.length + 6 ≤ n) :
    compilationUnit n width c =
      .ok (.node ⟨.compilationUnit, ⟨0, width⟩, none, false, none⟩ cs, c') := by
  cases rule with
  | compilationUnit directives declarations =>
      rw [Kind.phrase, List.map_append] at row
      obtain ⟨us, vs, _, _, ds, es, rfl, rfl, rfl, row₁, row₂⟩ := row.append_inv
      obtain ⟨c₁, took₁, took₂⟩ := took.split _
      rw [List.length_append] at hn
      obtain ⟨hbody, -, husing⟩ := declarations_answers row₂ (took₁.orderly horderly) took₂ hafter
        (n := n) (by omega)
      obtain ⟨hdirectives, -⟩ := usings_answers row₁ took₁ husing (n := n) (by omega)
      rw [compilationUnit, bind_eq hdirectives, bind_eq hbody]
      rfl

end Parser

end SharpMutants
