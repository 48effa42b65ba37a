import SharpMutants.Mutation.Settings
import SharpMutants.Proofs.Scanning.Stretch
import SharpMutants.Syntax.Render

/-!
# What may stand next to a token

Which characters prolong a token: a letter goes on as any other letter does
(`TokenKind.goesOn_word`), a blank, a parenthesis or a semicolon prolongs nothing
(`TokenKind.goesOn_inert`), and an operator goes on with itself only, if not with an equals sign or
a star (`TokenKind.goesOn_operator`).  So other text may follow a stretch that
begins in such a way (`Stretch.follow_inert`, `Stretch.follow_head`,
`Stretch.follow_word`), parentheses may be put around it (`Stretch.parenthesized`),
and a comment after it (`Stretch.comment`).
-/

namespace SharpMutants

open Scan

/-! ## Neighbouring characters -/

namespace TokenKind

variable {k : TokenKind} {c : Char} {rest : Text}

/-- The classes of tokens with which expressions end. -/
def endsExpression : TokenKind → Bool
  | identifier | int | double | string | keyword _ => true
  | mark m => m == .closeParen || m == .plusPlus || m == .minusMinus
  | endOfInput => false

/-- A character that begins what may stand behind any expression: an operator, a bracket, a blank
or a comment. -/
def breaks (c : Char) : Bool := !isWordPart c && c != '.'

/-- A character that breaks off goes on with no end of an expression. -/
theorem goesOn_of_breaks (hk : k.endsExpression = true) (hc : breaks c = true) :
    k.goesOn (c :: rest) = false := by
  have hdigit : isDigit c = false := by
    rw [breaks, isWordPart] at hc
    grind
  cases k with
  | mark m => cases m <;> first | rfl | cases hk
  | _ => simp_all [goesOn, comes, fractionComes, breaks]

/-- Nothing prolongs a step, a bracket or a semicolon. -/
theorem goesOn_closed {m : Mark}
    (hm : m ∈ [.plusPlus, .minusMinus, .openParen, .closeParen, .semicolon]) (after : Text) :
    (mark m).goesOn after = false := by
  simp only [List.mem_cons, List.not_mem_nil, or_false] at hm
  rcases hm with rfl | rfl | rfl | rfl | rfl <;> cases after <;>
    simp [goesOn, Mark.characters, comes, opensComment, Mark.ofPair?]

/-- A blank, a parenthesis and a semicolon prolong no token. -/
theorem goesOn_inert (hc : c ∈ [' ', '(', ')', ';']) : k.goesOn (c :: rest) = false := by
  simp only [List.mem_cons, List.not_mem_nil, or_false] at hc
  rcases hc with rfl | rfl | rfl | rfl <;> cases k with
  | mark m => cases m <;> rfl
  | _ => rfl

/-- No mark has a letter. -/
theorem ofPair?_word {x : Char} (hc : isWordStart c = true) : Mark.ofPair? x c = none := by
  rw [Option.eq_none_iff_forall_ne_some]
  intro m hm
  have hcharacters := ofPair?_eq_some.mp hm
  cases m <;> simp [Mark.characters] at hcharacters <;> obtain ⟨-, rfl⟩ := hcharacters <;> cases hc

/-- No digit begins a word. -/
theorem isDigit_eq_false (hc : isWordStart c = true) : isDigit c = false := by
  rw [isDigit, decide_eq_false_iff_not]
  rintro ⟨-, hle⟩
  simp only [isWordStart, Bool.or_eq_true, decide_eq_true_eq, beq_iff_eq] at hc
  rcases hc with (⟨hge, -⟩ | ⟨hge, -⟩) | rfl
  · exact absurd (Char.le_trans hge hle) (by decide)
  · exact absurd (Char.le_trans hge hle) (by decide)
  · exact absurd hle (by decide)

/-- One letter prolongs a token as well as another. -/
theorem goesOn_word {d : Char} {rest' : Text} (hc : isWordStart c = true)
    (hd : isWordStart d = true) : k.goesOn (c :: rest) = k.goesOn (d :: rest') := by
  have hplain : ∀ {c}, isWordStart c = true →
      (c == '.') = false ∧ (c == '/') = false ∧ (c == '*') = false := by
    intro c hc
    refine ⟨?_, ?_, ?_⟩ <;> rw [beq_eq_false_iff_ne] <;> rintro rfl <;> cases hc
  obtain ⟨hpoint, hslash, hstar⟩ := hplain hc
  obtain ⟨hpoint', hslash', hstar'⟩ := hplain hd
  cases k with
  | mark m =>
      simp only [goesOn]
      split
      · simp [comes, opensComment, ofPair?_word hc, ofPair?_word hd, *]
      · rfl
  | _ => simp [goesOn, comes, fractionComes, isWordPart, isDigit_eq_false, *]

/-- Only the sign of a step goes on with the step. -/
theorem exists_sign {op : UnaryOp} (hop : op.isStep = true)
    (h : k.goesOn (op.symbol.toList ++ rest) = true) :
    ∃ m, k = .mark m ∧ op.symbol.toList = m.characters ++ m.characters := by
  cases op <;> cases hop <;> cases k with
  | mark m => cases m <;> first | exact ⟨_, rfl, rfl⟩ | cases h
  | _ => cases h

/-- A mark of two characters ends in an equals sign or has one character twice. -/
theorem ofPair?_eq_none {x : Char} (hequal : c ≠ '=') (hdouble : c = x → x ∉ ['+', '-', '&', '|']) :
    Mark.ofPair? x c = none := by
  rw [Option.eq_none_iff_forall_ne_some]
  intro m hm
  have hcharacters := ofPair?_eq_some.mp hm
  cases m <;> simp [Mark.characters] at hcharacters <;> obtain ⟨rfl, rfl⟩ := hcharacters <;>
    simp at hequal hdouble

/-- An operator goes on with nothing that an operand or a blank begins with, but with itself. -/
theorem goesOn_operator {op : BinaryOp} (hop : op ∈ BinaryOp.interchangeable) (hequal : c ≠ '=')
    (hstar : c ≠ '*') (hdouble : op ∈ [.add, .sub, .div] → op.symbol.toList ≠ [c]) :
    (mark op.mark).goesOn (c :: rest) = false := by
  simp only [BinaryOp.interchangeable, List.mem_cons, List.not_mem_nil, or_false] at hop
  rcases hop with rfl | rfl | rfl | rfl | rfl | rfl | rfl | rfl | rfl | rfl <;>
    simp only [goesOn, BinaryOp.mark, Mark.characters, comes, opensComment, List.head?_cons,
      Option.any_some, Bool.or_eq_false_iff, Option.isSome_eq_false_iff, Option.isNone_iff_eq_none]
  all_goals refine ⟨ofPair?_eq_none hequal ?_, ?_⟩
  all_goals simp_all [BinaryOp.symbol]
  all_goals exact Ne.symm hdouble

end TokenKind

/-- A word does not begin with a line feed. -/
theorem Lexeme.WellSpelled.comes_text {l : Lexeme} (h : l.WellSpelled) (rest : Text) :
    comes (· != '\n') (l.text ++ rest) = true := by
  obtain ⟨c, cs, htext, is⟩ := h
  have hblank := (lexeme_eq_token.mp is).1
  rw [htext]
  simp only [comes, List.cons_append, List.head?_cons, Option.any_some, bne_iff_ne]
  rintro rfl
  cases hblank

/-- A name begins with a letter. -/
theorem Lexeme.WellSpelled.exists_start {text : Text} (h : WellSpelled ⟨.identifier, text⟩) :
    ∃ c cs, text = c :: cs ∧ isWordStart c = true := by
  obtain ⟨c, cs, rfl, is⟩ := h
  rcases token_cases is with ⟨word, -⟩ | ⟨-, h⟩ | ⟨-, hk, -⟩ | ⟨m, hk, -⟩
  · exact ⟨c, cs, rfl, word⟩
  · rcases number_kind h with hk | hk <;> cases hk
  · cases hk
  · cases hk

namespace Stretch

variable {text after rest : Text} {c d : Char} {k : TokenKind} {ls : List Lexeme}
  {last : Option TokenKind}

/-- A blank, a parenthesis or a semicolon may follow any stretch. -/
theorem follow_inert (h : Stretch after text ls last)
    (hline : last = none → comes (· != '\n') after = true) (hc : c ∈ [' ', '(', ')', ';']) :
    Stretch (c :: rest) text ls last := by
  refine h.follow (fun _ _ => TokenKind.goesOn_inert hc) (fun hdigit => ?_) hline
  simp only [List.mem_cons, List.not_mem_nil, or_false] at hc
  rcases hc with rfl | rfl | rfl | rfl <;> cases hdigit

/-- Any text that begins with the same character may follow. -/
theorem follow_head (h : Stretch (c :: after) text ls last) (hpoint : c ≠ '.') (hline : c ≠ '\n') :
    Stretch (c :: rest) text ls last := by
  refine h.follow (fun k hk => ?_) id fun _ => by simpa [comes] using hline
  rw [TokenKind.goesOn_cons hpoint, ← TokenKind.goesOn_cons hpoint]
  exact h.goesOn_eq_false k hk

/-- Any word may follow where one does. -/
theorem follow_word (h : Stretch (c :: after) text ls last) (hc : isWordStart c = true)
    (hd : isWordStart d = true) : Stretch (d :: rest) text ls last := by
  refine h.follow (fun k hk => ?_) (fun hdigit => ?_) fun _ => ?_
  · rw [TokenKind.goesOn_word hd hc]
    exact h.goesOn_eq_false k hk
  · simp [comes, TokenKind.isDigit_eq_false hd] at hdigit
  · simp only [comes, List.head?_cons, Option.any_some, bne_iff_ne]
    rintro rfl
    cases hc

/-- An operator may follow the end of an expression. -/
theorem follow_breaks (h : Stretch after text ls last)
    (hline : last = none → comes (· != '\n') after = true)
    (hend : ∀ k ∈ last, k.endsExpression = true) (hc : TokenKind.breaks c = true) :
    Stretch (c :: rest) text ls last := by
  refine h.follow (fun k hk => TokenKind.goesOn_of_breaks (hend k hk) hc) (fun hdigit => ?_) hline
  simp only [comes, List.head?_cons, Option.any_some] at hdigit
  simp [TokenKind.breaks, isWordPart, hdigit] at hc

/-- Parentheses around what ends with a token. -/
theorem parenthesized (h : Stretch after text ls (some k)) : Stretch rest ('(' :: (text ++ [')']))
    (.mark .openParen :: (ls ++ [Lexeme.mark .closeParen])) (some (.mark .closeParen)) := by
  have hopen : Stretch (text ++ ([')'] ++ rest)) ['('] [.mark .openParen] _ :=
    word (Lexeme.wellSpelled_mark .openParen) (TokenKind.goesOn_closed (by decide) _)
  have hclose : Stretch rest [')'] [.mark .closeParen] _ :=
    word (Lexeme.wellSpelled_mark .closeParen) (TokenKind.goesOn_closed (by decide) _)
  have hinside : Stretch ([')'] ++ rest) text ls (some k) := h.follow_inert nofun (by decide)
  have hclosed := hinside.append hclose
  rw [if_neg (List.cons_ne_nil _ _)] at hclosed
  have hall := (List.append_assoc text [')'] rest ▸ hopen).append hclosed
  rwa [if_neg (by simp)] at hall

end Stretch

/-! ## Comments -/

/-- The comment of a marker ends with the mark behind the marker, and not before. -/
def ClosedComment (marker : Option String) : Prop :=
  ∀ text ∈ marker, Settings.endsComment text.toList = false

namespace Scan

/-- A text that does not end a comment is closed by the mark behind it. -/
theorem commentLength?_closed {text : Text} (h : Settings.endsComment text = false) :
    commentLength? (text ++ " */".toList) = some (text ++ " */".toList).length := by
  fun_induction Settings.endsComment text with
  | case1 => cases h
  | case2 c cs notClosed ih =>
      have notClosed' : ∀ tail, c = '*' → cs ++ " */".toList ≠ '/' :: tail := by
        rintro tail rfl hcs
        cases cs with
        | nil => cases hcs
        | cons d cs =>
            obtain ⟨rfl, -⟩ := List.cons.inj hcs
            exact notClosed cs rfl rfl
      rw [List.cons_append, commentLength?.eq_2 _ _ fun tail hc h => notClosed' tail hc h, ih h]
      rfl
  | case3 => rfl

end Scan

/-- A comment of a marker is empty or begins with a blank. -/
theorem Render.comment_cases (marker : Option String) :
    Render.comment marker = [] ∨ ∃ rest, Render.comment marker = ' ' :: rest := by
  cases marker with
  | none => exact .inl rfl
  | some text => exact .inr ⟨_, rfl⟩

namespace Stretch

variable {text after : Text} {k : TokenKind} {ls : List Lexeme} {marker : Option String}

/-- **A comment** is passed over if its text does not end it. -/
theorem comment (h : ClosedComment marker) (after : Text) :
    Stretch after (Render.comment marker) [] none := by
  cases marker with
  | none => exact .nil
  | some text =>
      have hopen : Settings.endsComment (' ' :: text.toList) = false := h text rfl
      have hcomment : lexeme '/' ('*' :: (' ' :: text.toList ++ " */".toList)) = .trivia _ :=
        trivia_cons.mpr ⟨rfl, .inr ⟨rfl, commentLength?_closed hopen⟩⟩
      have hplace : Stretch after ('/' :: ('*' :: (' ' :: text.toList ++ " */".toList) ++ [])) []
          none :=
        .trivia (trivia_append.mpr ⟨hcomment, nofun⟩) .nil
      have hblank : ∀ rest, lexeme ' ' ([] ++ rest) = .trivia 0 := fun _ => trivia_nil.mpr rfl
      have htext : Render.comment (some text) =
          ' ' :: ([] ++ '/' :: '*' :: (' ' :: text.toList ++ " */".toList)) := rfl
      rw [List.append_nil] at hplace
      rw [htext]
      exact .trivia (hblank _) hplace

/-- A comment may follow what ends with a token. -/
theorem resume (h : Stretch after text ls (some k)) (marker : Option String) :
    Stretch (Render.comment marker ++ after) text ls (some k) := by
  rcases Render.comment_cases marker with hnone | ⟨rest, hsome⟩
  · rwa [hnone]
  · rw [hsome]
    exact h.follow_inert nofun (by decide)

end Stretch

end SharpMutants
