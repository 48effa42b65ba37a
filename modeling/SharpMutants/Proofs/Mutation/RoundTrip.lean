import SharpMutants.Proofs.Mutation.Reading

/-!
# Mutants read back as themselves

A mutant of a document prints as a text that is read as its own tree
(`mutants_read_back`), whatever stands around the mutated token, unless the new operator
runs together with its neighbour.  `RunsTogether` says when: the printer puts no
blank between the new operator and what the source has next to it, so a minus before
a sign becomes a step, and a slash before a comment one more comment.
-/

namespace SharpMutants

open Scan Text

/-! ## Operators that run together -/

/-- A new operator makes another token or a comment with what stands next to it: a plus, a minus
or a slash with the same character behind it, and a step with its own sign before it. -/
inductive RunsTogether (s : Text) (t : Tree) : Family → String → Prop
  | operator {old new : BinaryOp} {left right : Tree} {token : Span} :
      t.kind = .binary old → t.children = [left, right] → t.root.token = some token →
      new ∈ [.add, .sub, .div] →
      new.symbol.toList <+: slice s token.stop right.span.start ++
        wrapped (right.kind.precedence ≤ new.precedence) (slice s right.span.start right.span.stop) →
      RunsTogether s t .binaryOperator (Rewrite.swapSummary old.symbol new.symbol)
  | step {old new : UnaryOp} {tokens : List Token} {u : Token} :
      t.kind = .prefixUnary old → tokenize s = .ok tokens → u ∈ tokens →
      u.span.stop = t.span.start → new.symbol.toList = u.text ++ u.text →
      RunsTogether s t .unaryOperator (Rewrite.swapSummary old.symbol new.symbol)

variable {t : Tree} {ts us ws : List Token} {marker : Option String}

/-- **What a mutator makes of a node** is read as such between the tokens before the node and those
after it, if it does not run together with them. -/
theorem Rewrite.OfNode.readsWith {source : Source} {sym : Symbol} {place : Option Rewrite.Place}
    {known : String → Prop} {m : Mutator} {r : Rewrite} (h : Rewrite.OfNode place known t m r)
    (hder : Derives sym us t) (hsym : sym ≠ .unit) (hscans : Scans 0 source.text (ts ++ (us ++ ws)))
    (hspelled : ∀ v ∈ ts ++ us, v.lexeme.WellSpelled) (hlaid : Laid source.text t)
    (hknown : ∀ name, known name → SpellsName name)
    (hruns : ¬RunsTogether source.text t m.family r.summary)
    (hmarker : ClosedComment marker) :
    ReadsWith source.text t ts ws (((r.graft.withTrailing marker).toTree t.span).render source)
      ((r.graft.withTrailing marker).toTree t.span).yield := by
  obtain ⟨hbefore, hhere⟩ := List.forall_mem_append.mp hspelled
  cases h with
  | binary hkind hnew _ =>
      refine readsWith_binary hder hscans hhere hlaid hkind hnew place ?_ hmarker
      intro left right token hchildren htoken hlone hstarts
      exact hruns (.operator hkind hchildren htoken hlone hstarts)
  | postfixStep hkind hflip =>
      obtain ⟨hstep, -⟩ := UnaryOp.flipped?_eq_some hflip
      exact readsWith_postfixUnary hder hscans hhere hlaid hkind hstep hmarker
  | prefixOperator hkind hstep _ =>
      refine readsWith_prefixUnary hder hscans hspelled hlaid hkind hstep ?_ hmarker
      intro v hv hstop hsign
      exact hruns (.step hkind (tokenize_eq_ok.mpr hscans) (List.mem_append_left _ hv) hstop hsign)
  | deletion _ => exact readsWith_deletion hder hsym hscans hhere hmarker
  | identifier hkind hnew _ =>
      exact readsWith_identifier hder hscans hhere hlaid hkind (hknown _ hnew) hmarker

/-- No mutator rewrites a whole source. -/
theorem Rewrite.OfNode.kind_ne {place : Option Rewrite.Place} {known : String → Prop} {m : Mutator}
    {r : Rewrite} (h : Rewrite.OfNode place known t m r) : t.kind ≠ .compilationUnit := by
  intro hunit
  cases h with
  | deletion hdeletable =>
      rw [hunit] at hdeletable
      cases hdeletable
  | _ => simp_all

/-- The marker of settings that make sense is a closed comment. -/
theorem Settings.closedComment {settings : Settings} (h : settings.validate = .ok ()) :
    ClosedComment settings.marker := by
  intro text htext
  rw [validate, Option.mem_def.mp htext, Option.filter_some] at h
  by_contra hends
  rw [Bool.not_eq_false] at hends
  rw [hends, if_pos rfl] at h
  cases h

/-- **Mutants read back as themselves**, but for those in which the new operator runs together with
what stands next to it. -/
theorem mutants_read_back {source : Text} {d : Document} (h : parse source = .ok d)
    {settings : Settings} (hvalid : settings.validate = .ok ()) {ms : List Mutant}
    (hms : settings.plan.mutants d = .ok ms) :
    ∀ m ∈ ms, ∃ t, d.subtree? m.target = some t ∧
      (RunsTogether source t m.family m.summary ∨
        ∃ e, parse m.document.render = .ok e ∧ e.tree.sameShape m.document.tree) := by
  intro m hm
  obtain ⟨r, htarget, hmade, rfl⟩ := MutationPlan.exists_proposal hms m hm
  refine ⟨r.old, htarget, ?_⟩
  rw [or_iff_not_imp_left]
  intro hruns
  obtain ⟨rfl, hlaid, hspan⟩ := laid_of_parse h
  obtain ⟨-, -, -, -, -, hgrammatical, -⟩ := conforms_of_parse h
  have hroot : r.target ≠ 0 := by
    intro hzero
    obtain ⟨_, _, _, cs, -, -, -, -, -, htree⟩ := exists_row_of_parse h
    rw [hzero] at htarget
    have hold := (Tree.getElem?_subtrees_zero d.tree).symm.trans htarget
    exact hmade.kind_ne (by rw [← Option.some.inj hold, htree]; rfl)
  obtain ⟨ts, us, vs, e, s, hscans, hspelled, hend, hs, hder, hyield⟩ :=
    exists_context h htarget hroot
  have hhere : Laid d.source.text r.old := hlaid.of_mem_subtrees _ (List.mem_of_getElem? htarget)
  have hmarker := Settings.closedComment hvalid
  obtain ⟨tokens, htokens, hlexemes⟩ := hmade.readsWith hder hs hscans
    (fun v hv => hspelled v (by simp at hv ⊢; tauto)) hhere
    (fun name hname => hname.spellsName hgrammatical) hruns hmarker
  -- The text of the mutant, and its words.
  have hbinary : ∀ op, r.old.kind = .binary op → ∃ left right, r.old.children = [left, right] := by
    intro op hop
    obtain ⟨_, _, _, left, right, -, -, ht, -⟩ := hder.binary_inv hop
    exact ⟨left, right, by rw [ht]; rfl⟩
  obtain ⟨hnew, -⟩ := hmade.swapped hhere hbinary settings.marker
  obtain ⟨-, -, -, hrender⟩ := hlaid.render_replaceAt htarget hnew
  rw [hspan] at hrender
  have hwords : tokens.map Token.lexeme =
      (Tree.replaceAt (settings.plan.newTree r) r.target d.tree).yield ++ [.endOfInput] := by
    rw [hlexemes, hyield, List.map_append, List.map_singleton, hend]
    simp [MutationPlan.newTree, Settings.plan]
  obtain ⟨e', hparse, -, hshape⟩ := exists_parse_of_yield (hrender ▸ htokens)
    (hmade.grammatical hgrammatical htarget settings.marker) hwords
  exact ⟨e', hparse, beq_iff_eq.mpr hshape⟩

/-- The mutants of a sum without blanks; only the one with a minus runs together. -/
theorem mutants_read_back_sum : ∃ d ms,
    parse "class C \x7b int M(int a, int b) \x7b return a+-b; \x7d \x7d".toList = .ok d ∧
      Settings.validate ⟨⟨true, false, false, false⟩, none, false, true⟩ = .ok () ∧
      (Settings.plan ⟨⟨true, false, false, false⟩, none, false, true⟩).mutants d = .ok ms ∧
      ms.length = 9 ∧ ∀ m ∈ ms, ∃ t, d.subtree? m.target = some t ∧
        (RunsTogether "class C \x7b int M(int a, int b) \x7b return a+-b; \x7d \x7d".toList t m.family
            m.summary ∨
          ∃ e, parse m.document.render = .ok e ∧ e.tree.sameShape m.document.tree) := by
  have hread : (parse "class C \x7b int M(int a, int b) \x7b return a+-b; \x7d \x7d".toList).toOption.any
      (fun d => ((Settings.plan ⟨⟨true, false, false, false⟩, none, false, true⟩).mutants d).toOption.any
        fun ms => ms.length == 9) = true := by
    decide +kernel
  obtain ⟨d, hd, hmutants⟩ := exists_document_of_any hread
  cases hms : (Settings.plan ⟨⟨true, false, false, false⟩, none, false, true⟩).mutants d with
  | error e =>
      rw [hms] at hmutants
      cases hmutants
  | ok ms =>
      rw [hms] at hmutants
      exact ⟨d, ms, hd, rfl, hms, beq_iff_eq.mp hmutants, mutants_read_back hd rfl hms⟩

/-- A minus before a sign is read as a step: there is a mutant whose text is refused. -/
theorem exists_unreadable_mutant : ∃ d ms m,
    parse "class C \x7b int M(int a, int b) \x7b return a+-b; \x7d \x7d".toList = .ok d ∧
      Settings.validate ⟨⟨true, false, false, false⟩, none, false, true⟩ = .ok () ∧
      (Settings.plan ⟨⟨true, false, false, false⟩, none, false, true⟩).mutants d = .ok ms ∧
      m ∈ ms ∧ ∀ e, parse m.document.render ≠ .ok e := by
  have hread : (parse "class C \x7b int M(int a, int b) \x7b return a+-b; \x7d \x7d".toList).toOption.any
      (fun d => ((Settings.plan ⟨⟨true, false, false, false⟩, none, false, true⟩).mutants d).toOption.any
        fun ms => ms.any fun m => (parse m.document.render).toOption.isNone) = true := by
    decide +kernel
  obtain ⟨d, hd, hmutants⟩ := exists_document_of_any hread
  cases hms : (Settings.plan ⟨⟨true, false, false, false⟩, none, false, true⟩).mutants d with
  | error e =>
      rw [hms] at hmutants
      cases hmutants
  | ok ms =>
      rw [hms] at hmutants
      obtain ⟨m, hm, hnone⟩ := List.any_eq_true.mp hmutants
      refine ⟨d, ms, m, hd, rfl, hms, hm, fun e he => ?_⟩
      rw [he] at hnone
      cases hnone

end SharpMutants
