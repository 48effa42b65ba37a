import SharpMutants.Proofs.Layout.Runs

/-!
# How a run ends

Settings that make sense leave three ends to a run.  A source that is not read ends it with
the error of the reader, a source that is read and found wrong ends it with the errors found,
and any other source is mutated: no step after the judgement can fail, because every document
that is read has mutants (`exists_mutants`), whatever the plan.  Main statement:
`Run.ofSource_ends`.
-/

namespace SharpMutants

/-- A list of diagnostics refuses a program exactly when an error is among them. -/
theorem Diagnostics.accepted_eq_false {ds : List Diagnostic} :
    accepted ds = false ↔ ∃ f ∈ ds, f.isError = true := by
  rw [accepted, Bool.not_eq_false', List.any_eq_true]

/-- A list of diagnostics is accepted if none is an error. -/
theorem Diagnostics.accepted_eq_true {ds : List Diagnostic} :
    accepted ds = true ↔ ¬ ∃ f ∈ ds, f.isError = true := by
  rw [← accepted_eq_false, Bool.not_eq_false]

namespace Run

/-- What a run that goes through is made of: the document as it is read, the remarks on it, the
mutants of the plan, and those of them that the compiler accepts. -/
structure Finished (settings : Settings) (compiler : Compiler) (source : Text) (r : Run) : Prop where
  document : parse source = .ok r.document
  diagnostics : r.diagnostics = compiler r.document
  candidates : settings.plan.mutants r.document = .ok r.candidates
  survivors : r.survivors = r.candidates.filter (Mutant.isValid compiler)

variable {settings : Settings} {source : Text} {d : Document}

/-- A document in which errors are found is refused for them. -/
theorem ofDocument_of_error {compiler : Compiler} (h : ∃ f ∈ compiler d, f.isError = true) :
    ofDocument settings compiler d =
      .error (.rejected ((compiler d).filter Diagnostic.isError)) := by
  rw [ofDocument, judge, Diagnostics.accepted_eq_false.mpr h]
  rfl

/-- A document without errors that has mutants is judged and mutated. -/
theorem ofDocument_of_mutants {compiler : Compiler}
    (h : ¬ ∃ f ∈ compiler d, f.isError = true) {ms : List Mutant}
    (hms : settings.plan.mutants d = .ok ms) :
    ofDocument settings compiler d =
      .ok ⟨d, compiler d, ms, ms.filter (Mutant.isValid compiler)⟩ := by
  rw [ofDocument, judge, Diagnostics.accepted_eq_true.mpr h, hms]
  rfl

/-- A source that is read is run over as its document. -/
theorem ofSource_of_parse {compiler : Compiler} (hsettings : settings.validate = .ok ())
    (hread : parse source = .ok d) :
    ofSource settings compiler source = ofDocument settings compiler d := by
  rw [ofSource, hsettings, hread]

/-- The three ends of a run under settings that make sense. -/
inductive Ends (settings : Settings) (source : Text) : Except RunError Run → Prop
  | unreadable {e : ParseError} (read : parse source = .error e) :
      Ends settings source (.error (.unreadable e))
  | rejected {d : Document} (read : parse source = .ok d)
      (found : ∃ f ∈ check d, f.isError = true) :
      Ends settings source (.error (.rejected ((check d).filter Diagnostic.isError)))
  | finished {r : Run} (finished : Finished settings check source r)
      (clean : ¬ ∃ f ∈ check r.document, f.isError = true) : Ends settings source (.ok r)

/-- A run comes to one of its three ends. -/
theorem ends_ofSource (hsettings : settings.validate = .ok ()) (source : Text) :
    Ends settings source (ofSource settings check source) := by
  cases hread : parse source with
  | error e =>
      rw [ofSource, hsettings, hread]
      exact .unreadable hread
  | ok d =>
      rw [ofSource_of_parse hsettings hread]
      by_cases hfound : ∃ f ∈ check d, f.isError = true
      · rw [ofDocument_of_error hfound]
        exact .rejected hread hfound
      · obtain ⟨ms, hms⟩ := exists_mutants hread settings.plan
        rw [ofDocument_of_mutants hfound hms]
        exact .finished ⟨hread, rfl, hms, rfl⟩ hfound

/-- A run ends with an unreadable source if the source is not parsed. -/
theorem ofSource_eq_unreadable (hsettings : settings.validate = .ok ()) {e : ParseError} :
    ofSource settings check source = .error (.unreadable e) ↔ parse source = .error e := by
  constructor
  · intro h
    have hends := ends_ofSource hsettings source
    rw [h] at hends
    cases hends with
    | unreadable hread => exact hread
  · intro hread
    rw [ofSource, hsettings, hread]

/-- A run ends with a rejected source if the check has errors, and these are what it tells. -/
theorem ofSource_eq_rejected (hsettings : settings.validate = .ok ()) {errors : List Diagnostic} :
    ofSource settings check source = .error (.rejected errors) ↔
      ∃ d, parse source = .ok d ∧ (∃ f ∈ check d, f.isError = true) ∧
        errors = (check d).filter Diagnostic.isError := by
  constructor
  · intro h
    have hends := ends_ofSource hsettings source
    rw [h] at hends
    cases hends with
    | rejected hread hfound => exact ⟨_, hread, hfound, rfl⟩
  · rintro ⟨d, hread, hfound, rfl⟩
    rw [ofSource_of_parse hsettings hread]
    exact ofDocument_of_error hfound

/-- A run goes through if the check has no errors. -/
theorem ofSource_eq_ok (hsettings : settings.validate = .ok ()) {r : Run} :
    ofSource settings check source = .ok r ↔
      Finished settings check source r ∧ ¬ ∃ f ∈ check r.document, f.isError = true := by
  constructor
  · intro h
    have hends := ends_ofSource hsettings source
    rw [h] at hends
    cases hends with
    | finished hfinished hclean => exact ⟨hfinished, hclean⟩
  · intro h
    obtain ⟨hfinished, hclean⟩ := h
    rw [ofSource_of_parse hsettings hfinished.document,
      ofDocument_of_mutants hclean hfinished.candidates, ← hfinished.diagnostics,
      ← hfinished.survivors]

/-- A run goes through exactly when its source is read and nothing wrong is found in it. -/
theorem exists_ofSource_iff (hsettings : settings.validate = .ok ()) :
    (∃ r, ofSource settings check source = .ok r) ↔
      ∃ d, parse source = .ok d ∧ ¬ ∃ f ∈ check d, f.isError = true := by
  constructor
  · rintro ⟨r, h⟩
    obtain ⟨hfinished, hclean⟩ := (ofSource_eq_ok hsettings).mp h
    exact ⟨r.document, hfinished.document, hclean⟩
  · rintro ⟨d, hread, hclean⟩
    obtain ⟨ms, hms⟩ := exists_mutants hread settings.plan
    exact ⟨_, (ofSource_of_parse hsettings hread).trans (ofDocument_of_mutants hclean hms)⟩

/-- **A run fails only because of its source.**  Under settings that make sense a run ends with
the error of the reader exactly when the source is not read, with the errors found exactly when
it is read and some are found, and otherwise with the mutants of the plan; it never ends with an
error of the settings, of the data flow or of a mutator.  Mutants exist for every source that is
read, whatever mutators a plan lists, however it marks them and however it reads conditions. -/
theorem ofSource_ends (hsettings : settings.validate = .ok ()) (source : Text) :
    (∀ e, ofSource settings check source = .error (.unreadable e) ↔ parse source = .error e) ∧
    (∀ errors, ofSource settings check source = .error (.rejected errors) ↔
      ∃ d, parse source = .ok d ∧ (∃ f ∈ check d, f.isError = true) ∧
        errors = (check d).filter Diagnostic.isError) ∧
    (∀ r, ofSource settings check source = .ok r ↔
      Finished settings check source r ∧ ¬ ∃ f ∈ check r.document, f.isError = true) ∧
    ((∃ r, ofSource settings check source = .ok r) ↔
      ∃ d, parse source = .ok d ∧ ¬ ∃ f ∈ check d, f.isError = true) ∧
    (∀ e, ofSource settings check source ≠ .error (.mutation e)) ∧
    (∀ e, ofSource settings check source ≠ .error (.settings e)) ∧
    ∀ d, parse source = .ok d → ∀ plan : MutationPlan, ∃ ms, plan.mutants d = .ok ms := by
  have hends := ends_ofSource hsettings source
  refine ⟨fun e => ofSource_eq_unreadable hsettings, fun errors => ofSource_eq_rejected hsettings,
    fun r => ofSource_eq_ok hsettings, exists_ofSource_iff hsettings, ?_, ?_,
    fun d hread plan => exists_mutants hread plan⟩
  · intro e h
    rw [h] at hends
    cases hends
  · intro e h
    rw [h] at hends
    cases hends

/-- Only names are replaced, in a method that is found wrong and in one that is not. -/
theorem ofSource_ends_identifiers :
    Settings.validate ⟨⟨false, false, false, true⟩, none, true, false⟩ = .ok () ∧
    (∃ errors, ofSource ⟨⟨false, false, false, true⟩, none, true, false⟩ check
      "class A { int F(int a) { return b; } }".toList = .error (.rejected errors)) ∧
    ∃ r, ofSource ⟨⟨false, false, false, true⟩, none, true, false⟩ check
      "class A { int F(int a, int b) { b = a; while (a < b) { a++; } return b; } }".toList =
        .ok r := by
  have hwrong : (parse "class A { int F(int a) { return b; } }".toList).toOption.any
      (fun d => (check d).any Diagnostic.isError) = true := by
    decide +kernel
  have hright : (parse
      "class A { int F(int a, int b) { b = a; while (a < b) { a++; } return b; } }".toList
        ).toOption.any (fun d => !(check d).any Diagnostic.isError) = true := by
    decide +kernel
  obtain ⟨d, hd, hfound⟩ := exists_document_of_any hwrong
  obtain ⟨d', hd', hclean⟩ := exists_document_of_any hright
  rw [Bool.not_eq_true', ← Bool.not_eq_true, List.any_eq_true] at hclean
  refine ⟨by decide, ⟨(check d).filter Diagnostic.isError, ?_⟩, ?_⟩
  · exact ((ofSource_ends (by decide) _).2.1 _).mpr ⟨d, hd, List.any_eq_true.mp hfound, rfl⟩
  · exact (ofSource_ends (by decide) _).2.2.2.1.mpr ⟨d', hd', hclean⟩

end Run

end SharpMutants
