import Mathlib.Data.List.TakeWhile
import SharpMutants.Proofs.Derivation

/-!
# What a text scans to

A piece of text is read alone as it is read in its place, unless what follows it
prolongs it.  `TokenKind.goesOn` says when that happens: a letter after a word, a
digit after a number, a second character after a mark.  The key local fact is
`lexeme_append`: the first characters of a text are a token of a kind exactly if
they are one on their own and the rest of the text does not prolong it.

`Scans` is the relation of a text to its tokens, piece by piece, and
`scan_eq_ok` says that it is what `scan` computes.
-/

namespace SharpMutants

namespace Scan

/-- A character of a class comes next. -/
def comes (p : Char → Bool) (after : Text) : Bool := after.head?.any p

/-- A fraction comes next: a point and a digit. -/
def fractionComes (after : Text) : Bool := comes (· == '.') after && comes isDigit after.tail

/-- A comment begins with a character when some text follows it. -/
def opensComment (c : Char) (after : Text) : Bool :=
  c == '/' && comes (fun d => d == '/' || d == '*') after

end Scan

open Scan in
/-- The text after a token of a kind would make the token longer, or a comment of it. -/
def TokenKind.goesOn : TokenKind → Text → Bool
  | .identifier, after | .keyword _, after => comes isWordPart after
  | .int, after => comes isDigit after || fractionComes after
  | .double, after => comes isDigit after
  | .mark m, after =>
    match m.characters with
    | [c] => comes (fun d => (Mark.ofPair? c d).isSome) after || opensComment c after
    | _ => false
  | .string, _ | .endOfInput, _ => false

namespace Scan

variable {c : Char} {as bs rest : Text} {k : TokenKind} {n : Nat}

/-- No character of a class comes next if none can be taken. -/
theorem comes_eq_false {p : Char → Bool} : comes p bs = false ↔ bs.takeWhile p = [] := by
  cases bs with
  | nil => simp [comes]
  | cons b bs => simp [comes, List.takeWhile_cons]

/-- No more characters are taken than there are. -/
theorem length_takeWhile_le (p : Char → Bool) (as : Text) :
    (as.takeWhile p).length ≤ as.length :=
  have first := List.takeWhile_prefix p (l := as)
  first.length_le

/-- A text is all of a class if its first characters of the class are as many as it has. -/
theorem takeWhile_eq_self {p : Char → Bool} (h : (as.takeWhile p).length = as.length) :
    as.takeWhile p = as :=
  have first := List.takeWhile_prefix p
  first.eq_of_length h

/-- The characters of a class at the beginning of a text are its first part if they are that
part read alone and no further one comes. -/
theorem takeWhile_append_length (as bs : Text) {p : Char → Bool} :
    ((as ++ bs).takeWhile p).length = as.length ↔
      as.takeWhile p = as ∧ comes p bs = false := by
  rw [comes_eq_false, List.takeWhile_append]
  have whole : (as.takeWhile p).length = as.length → as.takeWhile p = as := takeWhile_eq_self
  split
  · simp_all
  · constructor
    · exact fun h => absurd h (by assumption)
    · rintro ⟨h, -⟩
      exact congrArg List.length h

/-- A word is a keyword or an identifier, and as long as its characters go. -/
theorem tokenAt_word (word : isWordStart c = true) :
    tokenAt c rest = .token
      (((Keyword.ofWord? (c :: rest.takeWhile isWordPart)).map TokenKind.keyword).getD .identifier)
      (rest.takeWhile isWordPart).length := by
  simp only [tokenAt, word, if_true]
  cases Keyword.ofWord? (c :: rest.takeWhile isWordPart) <;> rfl

/-- What is no blank and no comment is a token. -/
theorem lexeme_eq_tokenAt (plain : isBlank c = false) (noComment : opensComment c rest = false) :
    lexeme c rest = tokenAt c rest := by
  unfold lexeme
  simp only [plain, Bool.false_eq_true, if_false]
  split
  · simp [opensComment, comes] at noComment
  · simp [opensComment, comes] at noComment
  · rfl

/-- A token begins with no blank and no comment. -/
theorem lexeme_eq_token : lexeme c rest = .token k n ↔
    isBlank c = false ∧ opensComment c rest = false ∧ tokenAt c rest = .token k n := by
  constructor
  · intro h
    have plain : isBlank c = false := by
      rw [← Bool.not_eq_true]
      intro blank
      simp [lexeme, blank] at h
    have noComment : opensComment c rest = false := by
      unfold lexeme at h
      simp only [plain, Bool.false_eq_true, if_false] at h
      split at h
      · cases h
      · split at h <;> cases h
      · rename_i noLine noBlock
        cases rest with
        | nil => simp [opensComment, comes]
        | cons d rest =>
            have := noLine rest
            have := noBlock rest
            simp_all [opensComment, comes]
    exact ⟨plain, noComment, lexeme_eq_tokenAt plain noComment ▸ h⟩
  · rintro ⟨plain, noComment, h⟩
    rwa [lexeme_eq_tokenAt plain noComment]

/-- A number by the digits at its beginning and what follows them. -/
theorem number_eq : number rest =
    if fractionComes (rest.dropWhile isDigit) then
      .token .double ((rest.takeWhile isDigit).length + 1 +
        (((rest.dropWhile isDigit).drop 1).takeWhile isDigit).length)
    else .token .int (rest.takeWhile isDigit).length := by
  have dropped : rest.drop (rest.takeWhile isDigit).length = rest.dropWhile isDigit := by
    conv_lhs => rw [← List.takeWhile_append_dropWhile (p := isDigit) (l := rest)]
    rw [List.drop_append_of_le_length (by simp)]
    simp
  rcases h : rest.dropWhile isDigit with _ | ⟨e, _ | ⟨d, after⟩⟩
  · simp [number, dropped, h, fractionComes, comes]
  · simp [number, dropped, h, fractionComes, comes]
  · by_cases point : e = '.'
    · subst point
      by_cases digit : isDigit d
      · have length : (rest.takeWhile isDigit).length + 2 + (after.takeWhile isDigit).length
            = (rest.takeWhile isDigit).length + 1 + ((after.takeWhile isDigit).length + 1) := by
          omega
        simp [number, dropped, h, fractionComes, comes, digit, length]
      · simp [number, dropped, h, fractionComes, comes, digit]
    · simp [number, dropped, h, fractionComes, comes, point]

/-- A number is an integer if no fraction comes behind its digits. -/
theorem number_eq_int : number rest = .token .int n ↔
    (rest.takeWhile isDigit).length = n ∧ fractionComes (rest.dropWhile isDigit) = false := by
  rw [number_eq]
  cases fractionComes (rest.dropWhile isDigit) <;> simp

/-- A number is a `double` if a fraction comes behind its digits. -/
theorem number_eq_double : number rest = .token .double n ↔
    (rest.takeWhile isDigit).length + 1 +
        (((rest.dropWhile isDigit).drop 1).takeWhile isDigit).length = n ∧
      fractionComes (rest.dropWhile isDigit) = true := by
  rw [number_eq]
  cases fractionComes (rest.dropWhile isDigit) <;> simp

/-- A number is an integer or a `double`. -/
theorem number_kind (h : number rest = .token k n) : k = .int ∨ k = .double := by
  rw [number_eq] at h
  split at h
  · exact .inr (Lexeme.token.inj h).1.symm
  · exact .inl (Lexeme.token.inj h).1.symm

theorem dropWhile_eq_nil {p : Char → Bool} (h : as.takeWhile p = as) : as.dropWhile p = [] := by
  have parts := List.takeWhile_append_dropWhile (p := p) (l := as)
  rwa [h, List.append_right_eq_self] at parts

/-- An integer ends where it does before any text that does not go on with it. -/
theorem number_int_append : number (as ++ bs) = .token .int as.length ↔
    number as = .token .int as.length ∧ TokenKind.int.goesOn bs = false := by
  rw [number_eq_int, number_eq_int, takeWhile_append_length, TokenKind.goesOn, Bool.or_eq_false_iff]
  have alone := takeWhile_append_length as [] (p := isDigit)
  rw [List.append_nil] at alone
  rw [alone]
  constructor
  · rintro ⟨⟨digits, stop⟩, noFraction⟩
    have all : ∀ a ∈ as, isDigit a := List.takeWhile_eq_self_iff.mp digits
    rw [List.dropWhile_append_of_pos all] at noFraction
    refine ⟨⟨⟨digits, rfl⟩, by rw [dropWhile_eq_nil digits]; rfl⟩, stop, ?_⟩
    have parts := List.takeWhile_append_dropWhile (p := isDigit) (l := bs)
    rw [comes_eq_false.mp stop, List.nil_append] at parts
    rwa [parts] at noFraction
  · rintro ⟨⟨⟨digits, -⟩, -⟩, stop, noFraction⟩
    have all : ∀ a ∈ as, isDigit a := List.takeWhile_eq_self_iff.mp digits
    refine ⟨⟨digits, stop⟩, ?_⟩
    have parts := List.takeWhile_append_dropWhile (p := isDigit) (l := bs)
    rw [comes_eq_false.mp stop, List.nil_append] at parts
    rw [List.dropWhile_append_of_pos all, parts]
    exact noFraction

/-- A `double` ends where it does before any text that does not go on with it. -/
theorem number_double_append : number (as ++ bs) = .token .double as.length ↔
    number as = .token .double as.length ∧ TokenKind.double.goesOn bs = false := by
  have parts := List.takeWhile_append_dropWhile (p := isDigit) (l := as)
  have digits : ∀ a ∈ as.takeWhile isDigit, isDigit a := fun a => List.mem_takeWhile_imp
  rw [number_eq_double, number_eq_double, TokenKind.goesOn]
  rcases h : as.dropWhile isDigit with _ | ⟨e, tail⟩
  · rw [h, List.append_nil] at parts
    rw [parts] at digits
    rw [List.takeWhile_append_of_pos digits, List.length_append]
    constructor
    · rintro ⟨length, -⟩
      omega
    · rintro ⟨⟨-, fraction⟩, -⟩
      cases fraction
  · have stop : ¬isDigit e = true := by
      have := List.head?_dropWhile_not isDigit as
      simpa [h] using this
    rw [h] at parts
    generalize as.takeWhile isDigit = whole at parts digits
    subst parts
    simp only [List.append_assoc, List.takeWhile_append_of_pos digits,
      List.dropWhile_append_of_pos digits, List.cons_append, List.takeWhile_cons_of_neg stop,
      List.dropWhile_cons_of_neg stop, List.append_nil, List.length_append, List.length_cons,
      List.drop_succ_cons, List.drop_zero, fractionComes, List.tail_cons]
    have tailDigits := takeWhile_append_length tail bs (p := isDigit)
    have alone := takeWhile_append_length tail [] (p := isDigit)
    rw [List.append_nil] at alone
    constructor
    · rintro ⟨length, fraction⟩
      obtain ⟨all, none⟩ := tailDigits.mp (by omega)
      refine ⟨⟨by rw [all]; omega, ?_⟩, none⟩
      cases tail with
      | nil => simp [none] at fraction
      | cons d tail => exact fraction
    · rintro ⟨⟨length, fraction⟩, none⟩
      have := tailDigits.mpr ⟨(alone.mp (by omega)).1, none⟩
      refine ⟨by omega, ?_⟩
      cases tail with
      | nil => simp [comes] at fraction
      | cons d tail => exact fraction

/-- A number in its place. -/
theorem number_append : number (as ++ bs) = .token k as.length ↔
    number as = .token k as.length ∧ k.goesOn bs = false := by
  constructor
  · intro h
    rcases number_kind h with rfl | rfl
    · exact number_int_append.mp h
    · exact number_double_append.mp h
  · rintro ⟨h, stop⟩
    rcases number_kind h with rfl | rfl
    · exact number_int_append.mpr ⟨h, stop⟩
    · exact number_double_append.mpr ⟨h, stop⟩

/-- A word in its place. -/
theorem word_append (word : isWordStart c = true) : tokenAt c (as ++ bs) = .token k as.length ↔
    tokenAt c as = .token k as.length ∧ k.goesOn bs = false := by
  rw [tokenAt_word word, tokenAt_word word]
  simp only [Lexeme.token.injEq, takeWhile_append_length]
  have goesOn (read : Text) :
      (((Keyword.ofWord? (c :: read)).map TokenKind.keyword).getD .identifier).goesOn bs
        = comes isWordPart bs := by
    cases Keyword.ofWord? (c :: read) <;> rfl
  have whole (all : as.takeWhile isWordPart = as) (stop : comes isWordPart bs = false) :
      (as ++ bs).takeWhile isWordPart = as := by
    rw [List.takeWhile_append_of_pos (List.takeWhile_eq_self_iff.mp all), comes_eq_false.mp stop,
      List.append_nil]
  constructor
  · rintro ⟨kind, all, stop⟩
    rw [whole all stop] at kind
    rw [all, ← kind]
    exact ⟨⟨rfl, rfl⟩, by rw [goesOn, stop]⟩
  · rintro ⟨⟨kind, length⟩, stop⟩
    have all : as.takeWhile isWordPart = as := takeWhile_eq_self length
    rw [← kind, goesOn] at stop
    rw [whole all stop]
    exact ⟨by rw [← kind, all], all, stop⟩

theorem stringLength?_pos : ∀ {rest : Text} {n : Nat}, stringLength? rest = some n → 0 < n := by
  intro rest n h
  unfold stringLength? at h
  split at h <;> simp at h <;> omega

/-- The end of a string does not depend on what follows it. -/
theorem stringLength?_append :
    stringLength? (as ++ bs) = some as.length ↔ stringLength? as = some as.length := by
  induction as using stringLength?.induct with
  | case1 =>
      refine ⟨fun h => absurd (stringLength?_pos h) (by simp), fun h => by cases h⟩
  | case2 => simp [stringLength?]
  | case3 => simp [stringLength?]
  | case4 =>
      cases bs with
      | nil => simp
      | cons b bs => simp [stringLength?]
  | case5 _ cs ih => simp [stringLength?, ih]
  | case6 c cs noBreak noQuote noEscape noEscaped ih =>
      have plain : c ≠ '\\' := by
        rintro rfl
        cases cs with
        | nil => exact noEscape rfl rfl
        | cons d cs => exact noEscaped d cs rfl rfl
      simp_all [stringLength?]

/-- A mark of two characters is known by them. -/
theorem ofPair?_eq_some {d : Char} {m : Mark} :
    Mark.ofPair? c d = some m ↔ m.characters = [c, d] := by
  constructor
  · intro h
    unfold Mark.ofPair? at h
    split at h <;> cases h <;> rfl
  · intro h
    cases m <;> simp only [Mark.characters, List.cons.injEq, and_true, reduceCtorEq,
      and_false] at h <;> obtain ⟨rfl, rfl⟩ := h <;> rfl

/-- A mark of one character is known by it. -/
theorem ofChar?_eq_some {m : Mark} : Mark.ofChar? c = some m ↔ m.characters = [c] := by
  constructor
  · intro h
    unfold Mark.ofChar? at h
    split at h <;> cases h <;> rfl
  · intro h
    cases m <;> simp only [Mark.characters, List.cons.injEq, and_true, reduceCtorEq,
      and_false] at h <;> subst h <;> rfl

/-- The mark that a text begins with is the first characters, and it has one character only
if the first two make no mark. -/
theorem ofStart?_append {m : Mark} :
    (Mark.ofStart? (c :: (as ++ bs)) = some m ∧ m.characters.length - 1 = as.length) ↔
      m.characters = c :: as ∧ (as = [] → comes (fun d => (Mark.ofPair? c d).isSome) bs = false) := by
  have pairs {d : Char} {rest : Text} :
      Mark.ofStart? (c :: d :: rest) = (Mark.ofPair? c d).or (Mark.ofChar? c) := rfl
  match as, bs with
  | [], [] =>
      simp only [List.append_nil, Mark.ofStart?, ofChar?_eq_some, comes]
      grind
  | [], d :: bs =>
      rw [List.nil_append, pairs]
      cases pair : Mark.ofPair? c d with
      | none =>
          have := @ofChar?_eq_some c m
          simp only [Option.none_or, this, comes, List.head?_cons, Option.any_some, pair]
          grind
      | some m' =>
          have := ofPair?_eq_some.mp pair
          simp only [Option.some_or, Option.some.injEq, comes, List.head?_cons, Option.any_some,
            pair]
          grind
  | [d], bs =>
      rw [List.singleton_append, pairs]
      cases pair : Mark.ofPair? c d with
      | none =>
          have := @ofChar?_eq_some c m
          have := @ofPair?_eq_some c d m
          grind
      | some m' =>
          have := ofPair?_eq_some.mp pair
          have := @ofPair?_eq_some c d m
          grind
  | d :: e :: as, bs =>
      have short : m.characters.length ≤ 2 := by cases m <;> decide
      have := fun h : m.characters = c :: d :: e :: as => congrArg List.length h
      grind

/-- Comments begin with a slash. -/
theorem opensComment_eq_false (h : c ≠ '/') : opensComment c rest = false := by
  simp [opensComment, h]

/-- A token that begins with a digit is a number. -/
theorem tokenAt_number (word : isWordStart c = false) (digit : isDigit c = true) :
    tokenAt c rest = number rest := by
  simp [tokenAt, word, digit]

/-- A token that begins with a quote is a string. -/
theorem tokenAt_string : tokenAt '"' rest = .token k n ↔
    k = .string ∧ stringLength? rest = some n := by
  have word : isWordStart '"' = false := by decide
  have digit : isDigit '"' = false := by decide
  simp only [tokenAt, word, digit, Bool.false_eq_true, if_false, beq_self_eq_true, if_true]
  cases stringLength? rest <;> simp
  grind

/-- Any other token is a mark. -/
theorem tokenAt_mark (word : isWordStart c = false) (digit : isDigit c = false) (quote : c ≠ '"') :
    tokenAt c rest = .token k n ↔
      ∃ m, k = .mark m ∧ Mark.ofStart? (c :: rest) = some m ∧ m.characters.length - 1 = n := by
  simp only [tokenAt, word, digit, beq_eq_false_iff_ne.mpr quote, Bool.false_eq_true, if_false]
  cases Mark.ofStart? (c :: rest) <;> simp
  grind

/-- A mark in its place. -/
theorem mark_append {m : Mark} :
    (opensComment c (as ++ bs) = false ∧
        Mark.ofStart? (c :: (as ++ bs)) = some m ∧ m.characters.length - 1 = as.length) ↔
      (opensComment c as = false ∧
        Mark.ofStart? (c :: as) = some m ∧ m.characters.length - 1 = as.length) ∧
        (TokenKind.mark m).goesOn bs = false := by
  have alone := @ofStart?_append c as [] m
  rw [List.append_nil] at alone
  rw [ofStart?_append, alone]
  cases as with
  | nil =>
      simp only [List.nil_append, TokenKind.goesOn]
      constructor
      · rintro ⟨noComment, chars, stop⟩
        exact ⟨⟨by simp [opensComment, comes], chars, fun _ => rfl⟩, by simp [chars, stop, noComment]⟩
      · rintro ⟨⟨-, chars, -⟩, stop⟩
        simp_all
  | cons d as =>
      have same : opensComment c (d :: as ++ bs) = opensComment c (d :: as) := rfl
      have stop (chars : m.characters = c :: d :: as) : (TokenKind.mark m).goesOn bs = false := by
        simp [TokenKind.goesOn, chars]
      rw [same]
      constructor
      · rintro ⟨noComment, chars, -⟩
        exact ⟨⟨noComment, chars, nofun⟩, stop chars⟩
      · rintro ⟨⟨noComment, chars, -⟩, -⟩
        exact ⟨noComment, chars, nofun⟩

/-- **A piece of text is a token in its place** if it is one on its own and what follows it
does not prolong it. -/
theorem lexeme_append : lexeme c (as ++ bs) = .token k as.length ↔
    lexeme c as = .token k as.length ∧ k.goesOn bs = false := by
  rw [lexeme_eq_token, lexeme_eq_token]
  cases word : isWordStart c with
  | true =>
      have slash : c ≠ '/' := by rintro rfl; cases word
      rw [word_append word, opensComment_eq_false slash, opensComment_eq_false slash]
      tauto
  | false =>
      cases digit : isDigit c with
      | true =>
          have slash : c ≠ '/' := by rintro rfl; cases digit
          rw [tokenAt_number word digit, tokenAt_number word digit, number_append,
            opensComment_eq_false slash, opensComment_eq_false slash]
          tauto
      | false =>
          by_cases quote : c = '"'
          · subst quote
            have slash : '"' ≠ '/' := by decide
            rw [tokenAt_string, tokenAt_string, stringLength?_append,
              opensComment_eq_false slash, opensComment_eq_false slash]
            constructor
            · rintro ⟨plain, noComment, rfl, length⟩
              exact ⟨⟨plain, noComment, rfl, length⟩, rfl⟩
            · exact And.left
          · rw [tokenAt_mark word digit quote, tokenAt_mark word digit quote]
            constructor
            · rintro ⟨plain, noComment, m, rfl, h⟩
              obtain ⟨⟨noComment, h⟩, stop⟩ := mark_append.mp ⟨noComment, h⟩
              exact ⟨⟨plain, noComment, m, rfl, h⟩, stop⟩
            · rintro ⟨⟨plain, noComment, m, rfl, h⟩, stop⟩
              obtain ⟨noComment, h⟩ := mark_append.mpr ⟨⟨noComment, h⟩, stop⟩
              exact ⟨plain, noComment, m, rfl, h⟩

/-- A comment is no longer than its text. -/
theorem commentLength?_le (h : commentLength? rest = some n) : n ≤ rest.length := by
  induction rest using commentLength?.induct generalizing n with
  | case1 cs =>
      obtain rfl : 2 = n := Option.some.inj h
      exact Nat.le_add_left 2 cs.length
  | case2 c cs notClosed ih =>
      rw [commentLength?.eq_2 _ _ notClosed] at h
      obtain ⟨m, hm, rfl⟩ := Option.map_eq_some_iff.mp h
      exact Nat.succ_le_succ (ih hm)
  | case3 => cases h

/-- A string is no longer than its text. -/
theorem stringLength?_le : stringLength? rest = some n → n ≤ rest.length := by
  induction rest using stringLength?.induct generalizing n <;> simp_all [stringLength?] <;> grind

/-- A token does not reach beyond the text. -/
theorem le_length_of_token (h : lexeme c rest = .token k n) : n ≤ rest.length := by
  obtain ⟨-, -, h⟩ := lexeme_eq_token.mp h
  cases word : isWordStart c with
  | true =>
      rw [tokenAt_word word] at h
      obtain ⟨-, rfl⟩ := Lexeme.token.inj h
      exact length_takeWhile_le _ _
  | false =>
      cases digit : isDigit c with
      | true =>
          rw [tokenAt_number word digit] at h
          have parts := congrArg List.length
            (List.takeWhile_append_dropWhile (p := isDigit) (l := rest))
          rw [List.length_append] at parts
          rcases number_kind h with rfl | rfl
          · have := (number_eq_int.mp h).1
            omega
          · obtain ⟨length, fraction⟩ := number_eq_double.mp h
            have := length_takeWhile_le isDigit ((rest.dropWhile isDigit).drop 1)
            rw [List.length_drop] at this
            have : (rest.dropWhile isDigit) ≠ [] := by
              rintro none
              rw [none] at fraction
              cases fraction
            have := List.length_pos_iff.mpr this
            omega
      | false =>
          by_cases quote : c = '"'
          · subst quote
            exact stringLength?_le (tokenAt_string.mp h).2
          · obtain ⟨m, -, start, rfl⟩ := (tokenAt_mark word digit quote).mp h
            match rest with
            | [] =>
                have := ofChar?_eq_some.mp start
                simp [this]
            | d :: rest =>
                have short : m.characters.length ≤ 2 := by cases m <;> decide
                simp
                omega

/-- What stands between tokens: a blank, a comment up to the end of its line, or a comment up
to its closing mark. -/
theorem lexeme_eq_trivia : lexeme c rest = .trivia n ↔
    (isBlank c = true ∧ n = 0) ∨
      c = '/' ∧
        ((∃ line, rest = '/' :: line ∧ (line.takeWhile (· != '\n')).length + 1 = n) ∨
          ∃ inside m, rest = '*' :: inside ∧ commentLength? inside = some m ∧ m + 1 = n) := by
  have noTrivia {text : Text} : tokenAt c text ≠ .trivia n := by
    unfold tokenAt number
    grind
  cases blank : isBlank c with
  | true =>
      have slash : c ≠ '/' := by rintro rfl; cases blank
      simp [lexeme, blank, slash, eq_comm]
  | false =>
      unfold lexeme
      simp only [blank, Bool.false_eq_true, if_false, false_and, false_or]
      split
      · simp
      · rename_i inside
        cases h : commentLength? inside <;> simp [h]
      · rename_i noLine noBlock
        constructor
        · exact fun h => absurd h noTrivia
        · rintro ⟨rfl, ⟨line, rfl, -⟩ | ⟨inside, m, rfl, -⟩⟩
          · exact absurd rfl (noLine line rfl)
          · exact absurd rfl (noBlock inside rfl)

theorem le_length_of_trivia (h : lexeme c rest = .trivia n) : n ≤ rest.length := by
  rcases lexeme_eq_trivia.mp h with ⟨-, rfl⟩ | ⟨-, ⟨line, rfl, rfl⟩ | ⟨inside, m, rfl, hm, rfl⟩⟩
  · exact Nat.zero_le _
  · exact Nat.succ_le_succ (length_takeWhile_le _ _)
  · exact Nat.succ_le_succ (commentLength?_le hm)

/-- The tokens of a text that begins at an offset, piece by piece. -/
inductive Scans : Nat → Text → List Token → Prop
  | nil (o : Nat) : Scans o [] [⟨.endOfInput, [], ⟨o, o⟩⟩]
  | trivia {o : Nat} {c : Char} {as bs : Text} {ts : List Token}
      (is : lexeme c (as ++ bs) = .trivia as.length)
      (rest : Scans (o + Text.width (c :: as)) bs ts) : Scans o (c :: (as ++ bs)) ts
  | token {o : Nat} {c : Char} {as bs : Text} {k : TokenKind} {ts : List Token}
      (is : lexeme c (as ++ bs) = .token k as.length)
      (rest : Scans (o + Text.width (c :: as)) bs ts) :
      Scans o (c :: (as ++ bs)) (⟨k, c :: as, ⟨o, o + Text.width (c :: as)⟩⟩ :: ts)

/-- The characters of a piece are passed over. -/
theorem scan_pass (o : Nat) (as bs : Text) :
    scan as.length o (as ++ bs) = scan 0 (o + Text.width as) bs := by
  induction as generalizing o with
  | nil => rfl
  | cons a as ih =>
      rw [List.length_cons, List.cons_append, scan, ih, Text.width, Nat.add_assoc]

/-- Passing over a piece leads to where it ends. -/
theorem scan_pass_cons (o : Nat) (c : Char) (as bs : Text) :
    scan as.length (o + c.utf8Size) (as ++ bs) = scan 0 (o + Text.width (c :: as)) bs := by
  rw [scan_pass, Text.width, Nat.add_assoc]

theorem exists_append (h : n ≤ rest.length) : ∃ as bs, rest = as ++ bs ∧ as.length = n :=
  ⟨rest.take n, rest.drop n, (List.take_append_drop n rest).symm, List.length_take_of_le h⟩

/-- What the scanner finds are the pieces of the text. -/
theorem Scans.of_scan {o : Nat} {text : Text} {ts : List Token} (h : scan 0 o text = .ok ts) :
    Scans o text ts := by
  induction hn : text.length using Nat.strong_induction_on generalizing o text ts with
  | _ n ih =>
      cases text with
      | nil =>
          cases h
          exact .nil o
      | cons c cs =>
          rw [scan] at h
          split at h
          · rename_i piece
            obtain ⟨as, bs, rfl, rfl⟩ := exists_append (le_length_of_trivia piece)
            rw [scan_pass_cons] at h
            exact .trivia piece (ih _ (by simp at hn; omega) h rfl)
          · rename_i piece
            obtain ⟨as, bs, rfl, rfl⟩ := exists_append (le_length_of_token piece)
            rw [scan_pass_cons, List.take_left] at h
            cases hus : scan 0 (o + Text.width (c :: as)) bs with
            | error e =>
                rw [hus] at h
                cases h
            | ok us =>
                rw [hus] at h
                cases h
                exact .token piece (ih _ (by simp at hn; omega) hus rfl)
          · cases h

/-- **The pieces of a text** are what the scanner finds. -/
theorem Scans.scan_eq {o : Nat} {text : Text} {ts : List Token} (h : Scans o text ts) :
    scan 0 o text = .ok ts := by
  induction h with
  | nil => rfl
  | trivia is _ ih =>
      rw [scan, is]
      simp only [scan_pass_cons, ih]
  | token is _ ih =>
      rw [scan, is]
      simp only [scan_pass_cons, ih, List.take_left]
      rfl

/-- **The relation of a text to its tokens** is what `scan` computes. -/
theorem scan_eq_ok {o : Nat} {text : Text} {ts : List Token} :
    scan 0 o text = .ok ts ↔ Scans o text ts :=
  ⟨Scans.of_scan, Scans.scan_eq⟩

/-- The classes of tokens by what they begin with. -/
theorem token_cases (h : lexeme c rest = .token k n) :
    (isWordStart c = true ∧ n = (rest.takeWhile isWordPart).length ∧
      k = ((Keyword.ofWord? (c :: rest.takeWhile isWordPart)).map TokenKind.keyword).getD
        .identifier) ∨
    (isDigit c = true ∧ number rest = .token k n) ∨
    (c = '"' ∧ k = .string ∧ stringLength? rest = some n) ∨
    ∃ m, k = .mark m ∧ Mark.ofStart? (c :: rest) = some m ∧ m.characters.length - 1 = n := by
  obtain ⟨-, -, h⟩ := lexeme_eq_token.mp h
  cases word : isWordStart c with
  | true =>
      rw [tokenAt_word word] at h
      obtain ⟨rfl, rfl⟩ := Lexeme.token.inj h
      exact .inl ⟨rfl, rfl, rfl⟩
  | false =>
      cases digit : isDigit c with
      | true =>
          rw [tokenAt_number word digit] at h
          exact .inr (.inl ⟨rfl, h⟩)
      | false =>
          by_cases quote : c = '"'
          · subst quote
            exact .inr (.inr (.inl ⟨rfl, tokenAt_string.mp h⟩))
          · exact .inr (.inr (.inr ((tokenAt_mark word digit quote).mp h)))

end Scan

/-- A keyword is known by its spelling. -/
theorem Keyword.eq_spelling {word : Text} {k : Keyword} (h : ofWord? word = some k) :
    word = k.spelling.toList := by
  have same : word = (String.ofList word).toList := String.toList_ofList.symm
  rw [same]
  unfold ofWord? at h
  split at h <;> cases h <;> rename_i eq <;> rw [eq] <;> rfl

/-- Marks are well spelled. -/
theorem Lexeme.wellSpelled_mark (m : Mark) : (Lexeme.mark m).WellSpelled := by
  cases m <;> exact ⟨_, _, rfl, rfl⟩

namespace Lexeme.WellSpelled

variable {text : Text}

/-- The end of the input has no spelling. -/
theorem ne_end {l : Lexeme} (h : l.WellSpelled) : l.kind ≠ .endOfInput := by
  obtain ⟨c, cs, -, h⟩ := h
  rcases Scan.token_cases h with ⟨-, -, hk⟩ | ⟨-, h⟩ | ⟨-, hk, -⟩ | ⟨m, hk, -⟩
  · rw [hk]
    cases Keyword.ofWord? (c :: cs.takeWhile Scan.isWordPart) <;> nofun
  · rcases Scan.number_kind h with hk | hk <;> rw [hk] <;> nofun
  · rw [hk]
    nofun
  · rw [hk]
    nofun

/-- A mark has one spelling. -/
theorem mark {m : Mark} (h : WellSpelled ⟨.mark m, text⟩) : text = m.characters := by
  obtain ⟨c, cs, rfl, h⟩ := h
  rcases Scan.token_cases h with ⟨-, -, hk⟩ | ⟨-, h⟩ | ⟨-, hk, -⟩ | ⟨m', hk, start⟩
  · cases hw : Keyword.ofWord? (c :: cs.takeWhile Scan.isWordPart) <;> simp [hw] at hk
  · rcases Scan.number_kind h with hk | hk <;> cases hk
  · cases hk
  · cases hk
    have := @Scan.ofStart?_append c cs [] m
    rw [List.append_nil] at this
    exact (this.mp start).1.symm

/-- A keyword has one spelling. -/
theorem keyword {k : Keyword} (h : WellSpelled ⟨.keyword k, text⟩) : text = k.spelling.toList := by
  obtain ⟨c, cs, rfl, h⟩ := h
  rcases Scan.token_cases h with ⟨-, length, hk⟩ | ⟨-, h⟩ | ⟨-, hk, -⟩ | ⟨m', hk, start⟩
  · have all : cs.takeWhile Scan.isWordPart = cs :=
      Scan.takeWhile_eq_self length.symm
    rw [all] at hk
    cases hw : Keyword.ofWord? (c :: cs) with
    | none => simp [hw] at hk
    | some k' =>
        obtain rfl : k = k' := by simpa [hw] using hk
        exact Keyword.eq_spelling hw
  · rcases Scan.number_kind h with hk | hk <;> cases hk
  · cases hk
  · cases hk

/-- An identifier is a word. -/
theorem identifier_chars (h : WellSpelled ⟨.identifier, text⟩) :
    ∀ c ∈ text, Scan.isWordPart c = true := by
  obtain ⟨c, cs, rfl, h⟩ := h
  rcases Scan.token_cases h with ⟨word, length, -⟩ | ⟨-, h⟩ | ⟨-, hk, -⟩ | ⟨m', hk, -⟩
  · have all : cs.takeWhile Scan.isWordPart = cs :=
      Scan.takeWhile_eq_self length.symm
    rw [List.forall_mem_cons, Scan.isWordPart, word, Bool.true_or]
    exact ⟨rfl, List.takeWhile_eq_self_iff.mp all⟩
  · rcases Scan.number_kind h with hk | hk <;> cases hk
  · cases hk
  · cases hk

/-- No point stands in an identifier. -/
theorem identifier (h : WellSpelled ⟨.identifier, text⟩) : '.' ∉ text :=
  fun point => Bool.false_ne_true (h.identifier_chars '.' point)

end Lexeme.WellSpelled

/-- One token begins and ends before another. -/
def Token.Before (t u : Token) : Prop :=
  t.span.start ≤ u.span.start ∧ t.span.stop ≤ u.span.stop

/-- Tokens as a scanned text has them: well spelled, and each before the next. -/
structure Orderly (ts : List Token) : Prop where
  spelled : ∀ t ∈ ts, t.kind ≠ .endOfInput → t.lexeme.WellSpelled
  ascending : ts.Pairwise Token.Before

/-- The first ones of orderly tokens are orderly. -/
theorem Orderly.left {ts us : List Token} (h : Orderly (ts ++ us)) : Orderly ts :=
  ⟨fun t ht => h.spelled t (List.mem_append_left us ht), (List.pairwise_append.mp h.ascending).1⟩

/-- The last ones of orderly tokens are orderly. -/
theorem Orderly.right {ts us : List Token} (h : Orderly (ts ++ us)) : Orderly us :=
  ⟨fun t ht => h.spelled t (List.mem_append_right ts ht), (List.pairwise_append.mp h.ascending).2.1⟩

namespace Scan.Scans

variable {o : Nat} {text : Text} {ts : List Token}

/-- Only the last token is the end of the input. -/
theorem exists_end (h : Scans o text ts) : ∃ (us : List Token) (e : Token), ts = us ++ [e] ∧
    e.lexeme = .endOfInput ∧ ∀ u ∈ us, u.lexeme.WellSpelled := by
  induction h with
  | nil o => exact ⟨[], _, rfl, rfl, nofun⟩
  | trivia _ _ ih => exact ih
  | @token o c as bs k ts is _ ih =>
      obtain ⟨us, e, rfl, last, spelled⟩ := ih
      refine ⟨_ :: us, e, rfl, last, fun u hu => ?_⟩
      rcases List.mem_cons.mp hu with rfl | hu
      · exact ⟨c, as, rfl, (lexeme_append.mp is).1⟩
      · exact spelled u hu

/-- No token begins before the text or ends before it begins. -/
theorem bounds (h : Scans o text ts) :
    ∀ t ∈ ts, o ≤ t.span.start ∧ t.span.start ≤ t.span.stop := by
  induction h with
  | nil o => simp
  | trivia _ _ ih =>
      intro t ht
      have := ih t ht
      omega
  | token _ _ ih =>
      intro t ht
      rcases List.mem_cons.mp ht with rfl | ht
      · exact ⟨le_rfl, Nat.le_add_right _ _⟩
      · have := ih t ht
        omega

/-- Tokens are found in the order of their places. -/
theorem ascending (h : Scans o text ts) : ts.Pairwise Token.Before := by
  induction h with
  | nil o => exact List.pairwise_singleton _ _
  | trivia _ _ ih => exact ih
  | token _ rest ih =>
      refine List.pairwise_cons.mpr ⟨fun u hu => ?_, ih⟩
      have := rest.bounds u hu
      simp only [Token.Before]
      omega

/-- Tokens that are found are orderly. -/
theorem orderly (h : Scans o text ts) : Orderly ts := by
  refine ⟨fun t ht real => ?_, h.ascending⟩
  obtain ⟨us, e, rfl, last, spelled⟩ := h.exists_end
  rcases List.mem_append.mp ht with ht | ht
  · exact spelled t ht
  · rw [List.mem_singleton.mp ht] at real
    exact absurd (congrArg Lexeme.kind last) real

end Scan.Scans

/-- **Tokenizing a source** gives its pieces. -/
theorem tokenize_eq_ok {source : Text} {ts : List Token} :
    tokenize source = .ok ts ↔ Scan.Scans 0 source ts := by
  rw [← Scan.scan_eq_ok, tokenize]
  cases Scan.scan 0 0 source <;> simp [Except.mapError]

end SharpMutants
