import SharpMutants.Proofs.Soundness.Statements

/-!
# What is read as a source is derived

The readers of members, classes and namespaces, and `exists_row_of_parse`: the tree
of a document is derived from the tokens of its source, all of them but the end of
the input.
-/

namespace SharpMutants

namespace Parser

variable {c c' : Cursor}

/-- Parameters are read with commas between them. -/
theorem parameters_reads (n : Nat) :
    Reads (parameters n) fun ts cs _ => Commas .parameter ts cs ∧ cs ≠ [] := by
  induction n with
  | zero => exact fun c cs c' _ h => (refuse_ok.mp h).elim
  | succ n ih =>
      intro c cs c' horderly h
      simp only [parameters, peek_bind, bind_ok, nodeFrom_ok] at h
      obtain ⟨type, c₁, htype, name, _, hname, _, c₂, ⟨rfl, rfl⟩, hrest⟩ := h
      obtain ⟨_, took₁, horderly, hvalue, word, rfl, hword⟩ := valueType_reads horderly htype
      obtain ⟨_, took₂, horderly, rfl, hlexeme, -⟩ := identifier_reads horderly hname
      have took := took₁.cons took₂
      have hparameter := took.derives_next (List.cons_ne_nil _ _)
        (.parameter (nameOf name) hvalue) (.word hword (.word hlexeme .nil))
      obtain ⟨us, took₃, horderly, hcommas⟩ := andMore_reads ih horderly hparameter hrest
      exact ⟨_, took.trans took₃, horderly, hcommas⟩

/-- Modifiers are a row of their words. -/
theorem row_modifiers {ms : List Modifier} {ts : List Token}
    (h : ts.map Token.lexeme = ms.map fun m => .keyword (.modifier m)) :
    Row Derives (Part.modifiers ms) ts none [] := by
  have row := Row.ofWords (R := Derives) h
  rwa [List.map_map] at row

/-- The rest of a method makes it a member, behind its modifiers and type. -/
theorem methodRest_reads {n : Nat} {c₀ : Cursor} {ls : List Token} {ms : List Modifier}
    {type : TypeName} {typeToken : Token} {t : Tree} (took₀ : Took c₀ (ls ++ [typeToken]) c)
    (hmodifiers : ls.map Token.lexeme = ms.map fun m => .keyword (.modifier m))
    (htype : typeToken.lexeme = .keyword (.typeName type)) (horderly : Orderly c.rest)
    (h : methodRest n c₀.next.span.start ms type c = .ok (t, c')) :
    ∃ ts, Took c₀ ts c' ∧ Orderly c'.rest ∧ Derives .member ts t := by
  simp only [methodRest, bind_ok, discard_ok, nodeFrom_ok] at h
  obtain ⟨name, c₁, hname, _, c₂, ⟨open_, hopen⟩, cs, c₃, hcs, _, c₄, ⟨close, hclose⟩, body, c₅,
    hbody, rfl, rfl⟩ := h
  obtain ⟨_, took₁, horderly, rfl, hlexeme, -⟩ := identifier_reads horderly hname
  obtain ⟨_, took₂, horderly, rfl, hopen⟩ := mark_reads _ horderly hopen
  obtain ⟨ts, took₃, horderly, hcommas⟩ := unlessAt_reads (parameters_reads n) horderly hcs
  obtain ⟨_, took₄, horderly, rfl, hclose⟩ := mark_reads _ horderly hclose
  obtain ⟨us, took₅, horderly, hbody⟩ := (readsStatements n).block horderly hbody
  have took := took₀.trans (took₁.cons (took₂.cons (took₃.trans (took₄.cons took₅))))
  rw [List.append_assoc] at took
  refine ⟨_, took, horderly, took.derives_next (by simp)
    (.methodDecl (nameOf name) ms type cs.length) ?_⟩
  have row := (row_modifiers hmodifiers).append (.word htype (.word hlexeme (.word hopen
    (hcommas.append (.word hclose (.one (hbody .body .body)))))))
  simpa [Kind.phrase] using row

/-- The rest of a field makes it a member, behind its modifiers and type. -/
theorem fieldRest_reads {n : Nat} {c₀ c₁ : Cursor} {ls : List Token} {ms : List Modifier}
    {type : TypeName} {typeToken : Token} {t : Tree} (took₀ : Took c₀ ls c₁)
    (took₁ : Took c₁ [typeToken] c)
    (hmodifiers : ls.map Token.lexeme = ms.map fun m => .keyword (.modifier m))
    (htype : typeToken.lexeme = .keyword (.typeName type)) (hvalue : type ≠ .void)
    (horderly : Orderly c.rest)
    (h : fieldRest n c₀.next.span.start typeToken.span.start ms type c = .ok (t, c')) :
    ∃ ts, Took c₀ ts c' ∧ Orderly c'.rest ∧ Derives .member ts t := by
  simp only [fieldRest, bind_ok, discard_ok, nodeFrom_ok] at h
  obtain ⟨declaration, c₂, hdeclaration, _, c₃, ⟨last, hlast⟩, rfl, rfl⟩ := h
  obtain ⟨ts, took₂, horderly, hderives⟩ :=
    variableDeclaration_reads took₁ htype hvalue horderly hdeclaration
  obtain ⟨_, took₃, horderly, rfl, hlast⟩ := mark_reads _ horderly hlast
  have took := took₀.trans (took₂.trans took₃)
  refine ⟨_, took, horderly, took.derives_next (by simp) (.fieldDecl ms) ?_⟩
  exact (row_modifiers hmodifiers).append (.child hderives (.word hlast .nil))

/-- **A member is read as it derives.** -/
theorem member_reads (n : Nat) : Reads (member n) fun ts t _ => Derives .member ts t := by
  intro c t c' horderly h
  rw [member, peek_bind] at h
  obtain ⟨ms, c₁, hms, h⟩ := bind_ok.mp h
  rw [peek_bind] at h
  obtain ⟨type, c₂, htype, h⟩ := bind_ok.mp h
  obtain ⟨ls, took₁, horderly, hmodifiers⟩ := modifiers_reads n horderly hms
  obtain ⟨_, took₂, horderly, typeToken, rfl, htype⟩ := memberType_reads horderly htype
  have hnext := (Took.one_iff.mp took₂).2.1
  rw [at?_bind, peekSecond_bind] at h
  split at h
  · exact methodRest_reads (took₁.trans took₂) hmodifiers htype horderly h
  · split at h
    · exact (refuse_ok.mp h).elim
    · rename_i hvalue
      rw [hnext] at h
      exact fieldRest_reads took₁ took₂ hmodifiers htype hvalue horderly h

/-- Members are read up to the closing brace. -/
theorem members_reads (n : Nat) :
    Reads (members n) fun ts cs c' => Series .member ts cs ∧ c'.next.kind = .mark .closeBrace := by
  induction n with
  | zero => exact fun c cs c' _ h => (refuse_ok.mp h).elim
  | succ n ih => exact upToBrace_reads (member_reads n) ih

/-- A class is read as it derives. -/
theorem classDecl_reads (n : Nat) (inNamespace : Bool) :
    Reads (classDecl n) fun ts t _ => Derives (.declaration inNamespace) ts t := by
  intro c t c' horderly h
  rw [classDecl, peek_bind] at h
  obtain ⟨ms, c₁, hms, h⟩ := bind_ok.mp h
  obtain ⟨_, c₂, hword, h⟩ := bind_ok.mp h
  obtain ⟨name, c₃, hname, h⟩ := bind_ok.mp h
  obtain ⟨_, c₄, hopen, h⟩ := bind_ok.mp h
  obtain ⟨cs, c₅, hcs, h⟩ := bind_ok.mp h
  rw [discard_take_bind, nodeFrom_ok] at h
  obtain ⟨rfl, rfl⟩ := h
  obtain ⟨word, hword⟩ := discard_ok.mp hword
  obtain ⟨open_, hopen⟩ := discard_ok.mp hopen
  obtain ⟨ls, took₁, horderly, hmodifiers⟩ := modifiers_reads n horderly hms
  obtain ⟨_, took₂, horderly, rfl, hword⟩ := keyword_reads _ horderly hword
  obtain ⟨_, took₃, horderly, rfl, hlexeme, -⟩ := identifier_reads horderly hname
  obtain ⟨_, took₄, horderly, rfl, hopen⟩ := mark_reads _ horderly hopen
  obtain ⟨ts, took₅, horderly, hseries, hkind⟩ := members_reads n horderly hcs
  have took₆ := took_next hkind nofun
  have hspelled := took₆.spelled horderly _ List.mem_cons_self
  have took := took₁.trans (took₂.cons (took₃.cons (took₄.cons (took₅.trans took₆))))
  refine ⟨_, took, took₆.orderly horderly, took.derives_next (by simp)
    (.classDecl inNamespace (nameOf name) ms cs.length) ?_⟩
  exact (row_modifiers hmodifiers).append (.word hword (.word hlexeme (.word hopen
    (hseries.snoc (lexeme_of_mark hspelled hkind)))))

/-- The classes of a namespace are read up to the closing brace. -/
theorem classes_reads (n : Nat) :
    Reads (classes n) fun ts cs c' =>
      Series (.declaration true) ts cs ∧ c'.next.kind = .mark .closeBrace := by
  induction n with
  | zero => exact fun c cs c' _ h => (refuse_ok.mp h).elim
  | succ n ih => exact upToBrace_reads (classDecl_reads n true) ih

/-- **A namespace is read as it derives.** -/
theorem namespaceDecl_reads (n : Nat) :
    Reads (namespaceDecl n) fun ts t _ => Derives (.declaration false) ts t := by
  intro c t c' horderly h
  rw [namespaceDecl] at h
  obtain ⟨word, c₁, hword, h⟩ := bind_ok.mp h
  obtain ⟨path, c₂, hpath, h⟩ := bind_ok.mp h
  obtain ⟨_, c₃, hopen, h⟩ := bind_ok.mp h
  obtain ⟨cs, c₄, hcs, h⟩ := bind_ok.mp h
  rw [discard_take_bind, nodeFrom_ok] at h
  obtain ⟨rfl, rfl⟩ := h
  obtain ⟨open_, hopen⟩ := discard_ok.mp hopen
  obtain ⟨_, took₁, horderly, rfl, hword⟩ := keyword_reads _ horderly hword
  obtain ⟨ls, took₂, horderly, hpath⟩ := qualifiedName_reads n horderly hpath
  obtain ⟨_, took₃, horderly, rfl, hopen⟩ := mark_reads _ horderly hopen
  obtain ⟨ts, took₄, horderly, hseries, hkind⟩ := classes_reads n horderly hcs
  have took₅ := took_next hkind nofun
  have hspelled := took₅.spelled horderly _ List.mem_cons_self
  have took := took₁.cons (took₂.trans (took₃.cons (took₄.trans took₅)))
  refine ⟨_, took, took₅.orderly horderly, took.derives (.namespaceDecl path cs.length) ?_⟩
  exact .word hword ((Row.ofWords hpath).append (.word hopen
    (hseries.snoc (lexeme_of_mark hspelled hkind))))

/-- `using` directives are read one after another. -/
theorem usings_reads (n : Nat) :
    Reads (usings n) fun ts cs _ => Series .usingDirective ts cs := by
  induction n with
  | zero =>
      intro c cs c' horderly h
      obtain ⟨rfl, rfl⟩ := pure_ok.mp h
      exact ⟨[], .refl _, horderly, .nil⟩
  | succ n ih =>
      intro c cs c' horderly h
      rw [usings, at?_bind] at h
      split at h
      · rename_i hat
        have hkind : c.next.kind = .keyword .usingWord := of_decide_eq_true hat
        have took₁ := took_next hkind nofun
        have hspelled := took₁.spelled horderly _ List.mem_cons_self
        simp only [take_bind, bind_ok, discard_ok, nodeFrom_ok] at h
        obtain ⟨path, c₁, hpath, _, _, ⟨last, hlast⟩, _, c₂, ⟨rfl, rfl⟩, ds, c₃, hds, hend⟩ := h
        obtain ⟨rfl, rfl⟩ := pure_ok.mp hend
        obtain ⟨ls, took₂, horderly, hpath⟩ := qualifiedName_reads n (took₁.orderly horderly) hpath
        obtain ⟨_, took₃, horderly, rfl, hlast⟩ := mark_reads _ horderly hlast
        obtain ⟨ts, took₄, horderly, hseries⟩ := ih horderly hds
        have took := took₁.cons (took₂.trans took₃)
        have hdirective := took.derives (.usingDirective path)
          (.word (lexeme_of_keyword hspelled hkind) ((Row.ofWords hpath).snoc hlast))
        exact ⟨_, took.trans took₄, horderly, .child hdirective hseries⟩
      · obtain ⟨rfl, rfl⟩ := pure_ok.mp h
        exact ⟨[], .refl _, horderly, .nil⟩

/-- A declaration of a unit is read as it derives. -/
theorem declaration_reads (n : Nat) :
    Reads (declaration n) fun ts t _ => Derives (.declaration false) ts t := by
  intro c t c' horderly h
  rw [declaration, at?_bind] at h
  split at h
  · exact namespaceDecl_reads n horderly h
  · exact classDecl_reads n false horderly h

/-- The declarations of a unit are read up to the end of the input. -/
theorem declarations_reads (n : Nat) :
    Reads (declarations n) fun ts cs c' =>
      Series (.declaration false) ts cs ∧ c'.next.kind = .endOfInput := by
  induction n with
  | zero => exact fun c cs c' _ h => (refuse_ok.mp h).elim
  | succ n ih =>
      intro c cs c' horderly h
      rw [declarations, at?_bind] at h
      split at h
      · rename_i hat
        obtain ⟨rfl, rfl⟩ := pure_ok.mp h
        exact ⟨[], .refl _, horderly, .nil, of_decide_eq_true hat⟩
      · obtain ⟨d, c₁, hd, hrest⟩ := bind_ok.mp h
        obtain ⟨ds, c₂, hds, hend⟩ := bind_ok.mp hrest
        obtain ⟨rfl, rfl⟩ := pure_ok.mp hend
        obtain ⟨ts, took₁, horderly, hd⟩ := declaration_reads n horderly hd
        obtain ⟨us, took₂, horderly, hds, hnext⟩ := ih horderly hds
        exact ⟨_, took₁.trans took₂, horderly, .child hd hds, hnext⟩

/-- **A compilation unit is read as it derives**, up to the end of the input. -/
theorem compilationUnit_reads {n width : Nat} {t : Tree} (horderly : Orderly c.rest)
    (h : compilationUnit n width c = .ok (t, c')) :
    c'.next.kind = .endOfInput ∧ ∃ ts, Took c ts c' ∧ ∃ ss cs, Rule .unit .compilationUnit ss ∧
      Row Derives (Kind.compilationUnit.phrase ss) ts none cs ∧
      t = .node ⟨.compilationUnit, ⟨0, width⟩, none, false, none⟩ cs := by
  rw [compilationUnit] at h
  obtain ⟨directives, c₁, hdirectives, h⟩ := bind_ok.mp h
  obtain ⟨body, c₂, hbody, hend⟩ := bind_ok.mp h
  obtain ⟨rfl, rfl⟩ := pure_ok.mp hend
  obtain ⟨ts, took₁, horderly, hdirectives⟩ := usings_reads n horderly hdirectives
  obtain ⟨us, took₂, horderly, hbody, hnext⟩ := declarations_reads n horderly hbody
  refine ⟨hnext, _, took₁.trans took₂, _, _,
    .compilationUnit directives.length body.length, ?_, rfl⟩
  rw [Kind.phrase, List.map_append]
  exact hdirectives.append hbody

end Parser

/-- **The tree of a document is derived from the tokens of its source**, all of them but the
end of the input. -/
theorem exists_row_of_parse {source : Text} {d : Document} (h : parse source = .ok d) :
    ∃ (ts : List Token) (e : Token) (ss : List Symbol) (cs : List Tree),
      Scan.Scans 0 source (ts ++ [e]) ∧ e.lexeme = .endOfInput ∧
      (∀ t ∈ ts, t.lexeme.WellSpelled) ∧ Rule .unit .compilationUnit ss ∧
      Row Derives (Kind.compilationUnit.phrase ss) ts none cs ∧
      d.tree = .node ⟨.compilationUnit, ⟨0, Text.width source⟩, none, false, none⟩ cs := by
  obtain ⟨-, tokens, c, htokens, hunit⟩ := parse_eq_ok.mp h
  have hscans := tokenize_eq_ok.mp htokens
  obtain ⟨hnext, ts, took, ss, cs, rule, row, htree⟩ :=
    Parser.compilationUnit_reads hscans.orderly hunit
  obtain ⟨us, e, rfl, hend, hspelled⟩ := hscans.exists_end
  -- The reader stopped at the end of the input, and that is the last token and no other.
  have hrest : us ++ [e] = ts ++ c.rest := took.rest
  rcases hc : c.rest with _ | ⟨v, vs⟩
  · rw [hc, List.append_nil] at hrest
    have hmem : e ∈ ts := by
      rw [← hrest]
      exact List.mem_append_right us List.mem_cons_self
    exact absurd (congrArg Lexeme.kind hend) (took.real e hmem)
  · have hv : v.kind = .endOfInput := by rwa [Cursor.next, hc] at hnext
    rw [hc] at hrest
    rcases List.eq_nil_or_concat vs with rfl | ⟨vs, w, rfl⟩
    · obtain ⟨rfl, -⟩ := List.append_inj' hrest rfl
      exact ⟨us, e, ss, cs, hscans, hend, hspelled, rule, row, htree⟩
    · rw [List.concat_eq_append, ← List.cons_append, ← List.append_assoc] at hrest
      obtain ⟨rfl, -⟩ := List.append_inj' hrest rfl
      exact absurd hv (hspelled v (List.mem_append_right ts List.mem_cons_self)).ne_end

/-- The tree of a document conforms to the grammar and yields the tokens of the source. -/
theorem conforms_of_parse {source : Text} {d : Document} (h : parse source = .ok d) :
    ∃ (ts : List Token) (e : Token),
      tokenize source = .ok (ts ++ [e]) ∧ e.lexeme = .endOfInput ∧
      (∀ t ∈ ts, t.lexeme.WellSpelled) ∧ d.tree.Grammatical ∧
      d.tree.yield = ts.map Token.lexeme := by
  obtain ⟨ts, e, ss, cs, hscans, hend, hspelled, rule, row, htree⟩ := exists_row_of_parse h
  refine ⟨ts, e, tokenize_eq_ok.mpr hscans, hend, hspelled, ?_, ?_⟩
  · rw [htree]
    exact rule.conforms row hspelled fun _ _ _ => Derives.conforms
  · rw [htree]
    exact rule.yield_eq row (fun _ _ _ => Derives.yield_eq) rfl

end SharpMutants
