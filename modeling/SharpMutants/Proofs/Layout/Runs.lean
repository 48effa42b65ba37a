import SharpMutants.Proofs.Layout.Mutants
import SharpMutants.Proofs.Mutation.Distinct
import SharpMutants.Proofs.Completeness

/-!
# Runs do not depend on layout

Two sources with the same words are read as trees of one shape, or neither is read
(`exists_parse_of_words`).  Documents of one shape get the same diagnostics up to their
places and have the same mutants up to layout, so the same of these survive.  Neither a
comment that marks the rewritten nodes nor the reading of conditions makes a difference:
`Run.ofSource_alike`.
-/

namespace SharpMutants

/-- Sources with the same words are read as trees of one shape. -/
theorem exists_parse_of_words {source source' : Text} {ts ts' : List Token}
    (hs : tokenize source = .ok ts) (hs' : tokenize source' = .ok ts')
    (hwords : ts.map Token.lexeme = ts'.map Token.lexeme) {d : Document}
    (h : parse source = .ok d) :
    ∃ d', parse source' = .ok d' ∧ d.tree.shape = d'.tree.shape := by
  obtain ⟨us, e, hus, hend, -, hgrammatical, hyield⟩ := conforms_of_parse h
  obtain rfl : ts = us ++ [e] := Except.ok.inj (hs.symm.trans hus)
  have hspelled : ts'.map Token.lexeme = d.tree.yield ++ [Lexeme.endOfInput] := by
    rw [← hwords, List.map_append, List.map_singleton, hend, hyield]
  obtain ⟨d', h', -, hshape⟩ := exists_parse_of_yield hs' hgrammatical hspelled
  exact ⟨d', h', hshape.symm⟩

/-- Every document that is read has mutants, be it none. -/
theorem exists_mutants {source : Text} {d : Document} (h : parse source = .ok d)
    (p : MutationPlan) : ∃ ms, p.mutants d = .ok ms := by
  obtain ⟨-, -, -, -, -, hgrammatical, -⟩ := conforms_of_parse h
  obtain ⟨flowAt, made, -, -, hmade, hproposals⟩ := MutationPlan.exists_proposals hgrammatical p
  exact ⟨_, MutationPlan.mutants_eq hmade rfl hproposals⟩

/-- Mutants that are alike are accepted or rejected alike. -/
theorem Mutant.Alike.isValid_eq {m m' : Mutant} (h : m.Alike m') :
    m.isValid check = m'.isValid check := by
  rw [isValid, isValid, accepted_check_congr (beq_iff_eq.mp h.shape)]

namespace Run

/-- Two outcomes of runs agree up to layout: both sources are unreadable, or both are rejected for
the same errors, or the runs find the same mutants and the same of them survive. -/
inductive Alike : Except RunError Run → Except RunError Run → Prop
  | unreadable (e e' : ParseError) : Alike (.error (.unreadable e)) (.error (.unreadable e'))
  | rejected {errors errors' : List Diagnostic}
      (remarks : errors.map Diagnostic.remark = errors'.map Diagnostic.remark) :
      Alike (.error (.rejected errors)) (.error (.rejected errors'))
  | finished {r r' : Run} (document : r.document.sameShape r'.document = true)
      (remarks : r.diagnostics.map Diagnostic.remark = r'.diagnostics.map Diagnostic.remark)
      (candidates : List.Forall₂ Mutant.Alike r.candidates r'.candidates)
      (survivors : List.Forall₂ Mutant.Alike r.survivors r'.survivors) : Alike (.ok r) (.ok r')

/-- Runs over documents of one shape are alike. -/
theorem ofDocument_alike {d d' : Document} (h : d.tree.shape = d'.tree.shape)
    {settings settings' : Settings} (hfamilies : settings.families = settings'.families)
    {ms : List Mutant} (hms : settings.plan.mutants d = .ok ms) :
    Alike (ofDocument settings check d) (ofDocument settings' check d') := by
  have hmutators : settings.plan.mutators = settings'.plan.mutators := by
    rw [Settings.plan, hfamilies, Settings.plan]
  obtain ⟨ms', hms', hcandidates⟩ := MutationPlan.mutants_alike h hmutators hms
  have hjudged := accepted_check_congr h
  rw [ofDocument, ofDocument, judge, judge, ← hjudged]
  cases Diagnostics.accepted (check d) with
  | false => exact .rejected (remarks_errors h)
  | true =>
      rw [hms, hms']
      refine .finished (beq_iff_eq.mpr h) (remarks_check h) hcandidates ?_
      refine List.rel_filter ?_ hcandidates
      intro m m' hm
      dsimp only
      rw [hm.isValid_eq]

/-- **Layout makes no difference.**  Two sources with the same words, run over by settings that
choose the same families, are both unreadable, or both are rejected for the same errors, or they
have the same mutants, of which the same survive. -/
theorem ofSource_alike {source source' : Text} {ts ts' : List Token}
    (hs : tokenize source = .ok ts) (hs' : tokenize source' = .ok ts')
    (hwords : ts.map Token.lexeme = ts'.map Token.lexeme) {settings settings' : Settings}
    (hsettings : settings.validate = .ok ()) (hsettings' : settings'.validate = .ok ())
    (hfamilies : settings.families = settings'.families) :
    Alike (ofSource settings check source) (ofSource settings' check source') := by
  rw [ofSource, ofSource, hsettings, hsettings']
  dsimp only
  cases hread : parse source with
  | error e =>
      cases hread' : parse source' with
      | error e' => exact .unreadable e e'
      | ok d' =>
          obtain ⟨d, hd, -⟩ := exists_parse_of_words hs' hs hwords.symm hread'
          rw [hread] at hd
          cases hd
  | ok d =>
      obtain ⟨d', hread', hshape⟩ := exists_parse_of_words hs hs' hwords hread
      obtain ⟨ms, hms⟩ := exists_mutants hread settings.plan
      rw [hread']
      exact ofDocument_alike hshape hfamilies hms

/-- A method with a comment in it and without, marked and unmarked. -/
theorem ofSource_alike_comment :
    Alike (ofSource .standard check "class A { int F(int a) { return a + 1; } }".toList)
      (ofSource ⟨.all, none, true, false⟩ check
        "class A{int F(int a)/* more */{return a+1;}}".toList) := by
  have hread : (tokenize "class A { int F(int a) { return a + 1; } }".toList).toOption.any
      (fun ts => (tokenize "class A{int F(int a)/* more */{return a+1;}}".toList).toOption.any
        fun ts' => ts.map Token.lexeme == ts'.map Token.lexeme) = true := by
    decide +kernel
  obtain ⟨ts, hs, hread⟩ := exists_ok_of_any hread
  obtain ⟨ts', hs', hwords⟩ := exists_ok_of_any hread
  exact ofSource_alike hs hs' (eq_of_beq hwords) (by decide) (by decide) rfl

end Run

end SharpMutants
