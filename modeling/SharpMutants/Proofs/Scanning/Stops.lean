import SharpMutants.Proofs.Scanning.Exact

/-!
# Where scanning stops

A source that cannot be scanned has a place at which no piece begins: no blank, no comment and no
token.  `NoPiece` says for each cause of an error, without a scanner, what begins there instead: a
comment that no mark closes, a string that no quote closes on its line, or a character with
which no token begins.  Up to that place the tokens cut the source into its words (`Cut`), so the
place lies within no token and within no comment.
-/

namespace SharpMutants

open Scan

/-- No piece begins with a text, for a cause. -/
inductive NoPiece : ParseCause → Text → Prop
  | comment {inside : Text} (opened : ¬['*', '/'] <:+: inside) :
      NoPiece .unterminatedComment ('/' :: '*' :: inside)
  | string {rest : Text} (opened : ∀ text, Quoted text → ¬text ++ ['"'] <+: rest) :
      NoPiece .unterminatedString ('"' :: rest)
  | character {c : Char} {rest : Text} (plain : c ∉ [' ', '\t', '\n', '\x0c', '\r', '"'])
      (starts : ∀ k text, Spells k text → ¬text <+: c :: rest) :
      NoPiece (.unexpectedCharacter c) (c :: rest)

/-- Tokens cut the part of a source between two offsets into its words. -/
structure Cut (source : Text) (start stop : Nat) (ts : List Token) : Prop where
  inOrder : source.InOrder start stop (ts.map Token.span)
  exact : ∀ t ∈ ts, t.Exact source
  gaps : Gaps source start (ts ++ [⟨.endOfInput, [], ⟨stop, stop⟩⟩])

/-! ## What begins at the place -/

/-- A text begins with a mark if a part of it does. -/
theorem Mark.isSome_ofStart?_append {text : Text} (h : (ofStart? text).isSome) (more : Text) :
    (ofStart? (text ++ more)).isSome := by
  match text, more with
  | [c], d :: more =>
      rw [ofStart?] at h
      rw [List.singleton_append, ofStart?, Option.isSome_or, h, Bool.or_true]
  | [c], [] => exact h
  | _ :: _ :: _, _ => exact h

namespace Scan

variable {c : Char} {rest : Text} {cause : ParseCause}

/-- A comment that is not closed has no closing mark. -/
theorem not_infix_of_commentLength? (h : commentLength? rest = none) :
    ¬['*', '/'] <:+: rest := by
  induction rest using commentLength?.induct with
  | case1 => cases h
  | case2 c cs notClosed ih =>
      rw [commentLength?.eq_2 _ _ notClosed, Option.map_eq_none_iff] at h
      rw [List.infix_cons_iff]
      rintro (⟨more, hmore⟩ | hlater)
      · obtain ⟨rfl, rfl⟩ := List.cons.inj hmore
        exact notClosed more rfl rfl
      · exact ih h hlater
  | case3 => exact fun hlater => absurd hlater.length_le (by decide)

/-- A string that is not closed begins with no quoted text and a quote. -/
theorem not_prefix_of_stringLength? (h : stringLength? rest = none) :
    ∀ text, Quoted text → ¬text ++ ['"'] <+: rest := by
  rintro text quoted ⟨more, rfl⟩
  rw [stringLength?_append.mpr (stringLength?_eq_length.mpr ⟨text, rfl, quoted⟩)] at h
  cases h

/-- No token begins with a character that begins no word, number, string or mark. -/
theorem not_prefix_of_ofStart? (word : isWordStart c = false) (digit : isDigit c = false)
    (quote : c ≠ '"') (h : Mark.ofStart? (c :: rest) = none) :
    ∀ k text, Spells k text → ¬text <+: c :: rest := by
  intro k text hspells hprefix
  obtain ⟨_, cs, rfl, htoken⟩ := hspells.wellSpelled
  obtain ⟨rfl, more, rfl⟩ := List.cons_prefix_cons.mp hprefix
  rcases token_cases htoken with ⟨start, -⟩ | ⟨start, -⟩ | ⟨start, -⟩ | ⟨m, -, start, -⟩
  · exact absurd start (by simp [word])
  · exact absurd start (by simp [digit])
  · exact quote start
  · have hmark := Mark.isSome_ofStart?_append (Option.isSome_of_eq_some start) more
    rw [List.cons_append, h] at hmark
    cases hmark

/-- Where no token begins there is a string that is not closed, or a character with which none
begins. -/
theorem tokenAt_eq_error (h : tokenAt c rest = .error cause) :
    (c = '"' ∧ stringLength? rest = none ∧ cause = .unterminatedString) ∨
      (isWordStart c = false ∧ isDigit c = false ∧ c ≠ '"' ∧ Mark.ofStart? (c :: rest) = none ∧
        cause = .unexpectedCharacter c) := by
  cases word : isWordStart c with
  | true =>
      rw [tokenAt_word word] at h
      cases h
  | false =>
      cases digit : isDigit c with
      | true =>
          rw [tokenAt_number word digit, number_eq] at h
          split at h <;> cases h
      | false =>
          simp only [tokenAt, word, digit, Bool.false_eq_true, if_false] at h
          by_cases quote : c = '"'
          · rw [if_pos (beq_iff_eq.mpr quote)] at h
            cases hlength : stringLength? rest with
            | some n =>
                rw [hlength] at h
                cases h
            | none =>
                rw [hlength] at h
                exact .inl ⟨quote, rfl, (Lexeme.error.inj h).symm⟩
          · rw [if_neg (by simpa using quote)] at h
            cases hmark : Mark.ofStart? (c :: rest) with
            | some m =>
                rw [hmark] at h
                cases h
            | none =>
                rw [hmark] at h
                exact .inr ⟨rfl, rfl, quote, rfl, (Lexeme.error.inj h).symm⟩

/-- **What begins at the place of an error** is no piece, for the cause of the error. -/
theorem noPiece_of_lexeme (h : lexeme c rest = .error cause) : NoPiece cause (c :: rest) := by
  have plain : isBlank c = false := by
    rw [← Bool.not_eq_true]
    intro blank
    simp [lexeme, blank] at h
  simp only [lexeme, plain, Bool.false_eq_true, if_false] at h
  split at h
  · cases h
  · split at h
    · cases h
    · rename_i hlength
      obtain rfl := Lexeme.error.inj h
      exact .comment (not_infix_of_commentLength? hlength)
  · rcases tokenAt_eq_error h with ⟨rfl, hlength, rfl⟩ | ⟨word, digit, quote, hmark, rfl⟩
    · exact .string (not_prefix_of_stringLength? hlength)
    · refine .character ?_ (not_prefix_of_ofStart? word digit quote hmark)
      have hblank : c ∉ [' ', '\t', '\n', '\x0c', '\r'] := by
        rw [← isBlank_iff, plain]
        exact Bool.false_ne_true
      simp only [List.mem_cons, List.not_mem_nil, or_false] at hblank ⊢
      tauto

end Scan

/-! ## What stands before the place -/

namespace Cut

variable {source before as bs : Text} {c : Char} {o stop : Nat} {ts : List Token}

/-- A part of a source that is cut into words ends at a boundary. -/
theorem boundary (h : Cut source o stop ts) : source.Boundary stop := h.inOrder.range.stop

/-- The first gap ends at a boundary. -/
theorem range_head? (h : Cut source o stop ts) :
    ∀ t ∈ (ts ++ [(⟨.endOfInput, [], ⟨stop, stop⟩⟩ : Token)]).head?,
      source.Range o t.span.start := by
  have horder := h.inOrder
  cases ts with
  | nil =>
      rintro _ ⟨⟩
      exact horder
  | cons t ts =>
      rintro _ ⟨⟩
      exact horder.1

/-- An empty part of a source is cut into no words. -/
theorem nil (h : source.Boundary o) : Cut source o o [] := by
  refine ⟨h.range, nofun, ?_, trivial⟩
  rw [Text.slice_self]
  exact .nil

/-- A blank or a comment is passed over. -/
theorem trivia (is : lexeme c (as ++ bs) = .trivia as.length)
    (hsource : source = before ++ c :: (as ++ bs)) (ho : before.width = o)
    (h : Cut source (o + Text.width (c :: as)) stop ts) : Cut source o stop ts :=
  ⟨h.inOrder.widen (Text.range_passed hsource ho), h.exact,
    Gaps.passed is hsource ho h.range_head? h.gaps⟩

/-- A token is passed over. -/
theorem token {k : TokenKind} (is : lexeme c (as ++ bs) = .token k as.length)
    (hsource : source = before ++ c :: (as ++ bs)) (ho : before.width = o)
    (h : Cut source (o + Text.width (c :: as)) stop ts) :
    Cut source o stop (⟨k, c :: as, ⟨o, o + Text.width (c :: as)⟩⟩ :: ts) := by
  have hpiece := Text.range_passed hsource ho
  refine ⟨⟨hpiece.start.range, hpiece, h.inOrder⟩, List.forall_mem_cons.mpr ⟨?_, h.exact⟩, ?_,
    h.gaps⟩
  · rw [hsource, ← ho]
    exact exact_of_lexeme before is
  · rw [Text.slice_self]
    exact .nil

end Cut

/-- **Where scanning stops** no piece begins, and the tokens before that place cut the source into
its words. -/
theorem Scan.exists_cut_of_scan {source before text : Text} {o stop : Nat} {cause : ParseCause}
    (h : scan 0 o text = .error (stop, cause)) (hsource : source = before ++ text)
    (ho : before.width = o) :
    ∃ ts, Cut source o stop ts ∧ NoPiece cause (Text.dropBytes stop source) := by
  induction hn : text.length using Nat.strong_induction_on generalizing before text o with
  | _ n ih =>
      cases text with
      | nil => cases h
      | cons c cs =>
          rw [scan] at h
          split at h
          · rename_i piece
            obtain ⟨as, bs, rfl, rfl⟩ := exists_append (le_length_of_trivia piece)
            obtain ⟨hsplit, hwidth⟩ := Text.passed hsource ho
            rw [scan_pass_cons] at h
            obtain ⟨ts, hcut, hstop⟩ := ih _ (by simp at hn; omega) h hsplit hwidth rfl
            exact ⟨ts, hcut.trivia piece hsource ho, hstop⟩
          · rename_i piece
            obtain ⟨as, bs, rfl, rfl⟩ := exists_append (le_length_of_token piece)
            obtain ⟨hsplit, hwidth⟩ := Text.passed hsource ho
            rw [scan_pass_cons] at h
            cases hrest : scan 0 (o + Text.width (c :: as)) bs with
            | ok ts =>
                rw [hrest] at h
                cases h
            | error e =>
                rw [hrest] at h
                cases h
                obtain ⟨ts, hcut, hstop⟩ := ih _ (by simp at hn; omega) hrest hsplit hwidth rfl
                exact ⟨_, hcut.token piece hsource ho, hstop⟩
          · rename_i piece
            cases h
            refine ⟨[], .nil ⟨before, _, hsource, ho⟩, ?_⟩
            rw [hsource, ← ho, Text.dropBytes_width]
            exact noPiece_of_lexeme piece

end SharpMutants
