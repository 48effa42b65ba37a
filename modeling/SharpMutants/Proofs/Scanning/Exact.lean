import SharpMutants.Proofs.Rendering.Lossless
import SharpMutants.Proofs.Scanning.ByteScan
import SharpMutants.Proofs.Scanning.Printed

/-!
# Exactness of scanning

What a token is, said without a scanner: `Spells` gives the texts of each class, and
`Trivia` the texts that may stand between tokens.  The tokens of a source are
`Exact`: they stand one after another on boundaries of the source, each with a text of
its class that no characters behind it prolong, with nothing but blanks and comments between
them, and with the end of the input behind the last one.
-/

namespace SharpMutants

open Scan

/-- What may stand between the quotes of a string: a backslash takes the next character with it. -/
inductive Quoted : Text → Prop
  | nil : Quoted []
  | plain {c : Char} {text : Text} (hc : c ∉ ['"', '\\', '\n']) (rest : Quoted text) :
      Quoted (c :: text)
  | escape (c : Char) {text : Text} (rest : Quoted text) : Quoted ('\\' :: c :: text)

/-- The texts of each class of tokens. -/
inductive Spells : TokenKind → Text → Prop
  | keyword (k : Keyword) : Spells (.keyword k) k.spelling.toList
  | identifier {c : Char} {cs : Text} (start : isWordStart c = true)
      (more : ∀ d ∈ cs, isWordPart d = true) (plain : ∀ k : Keyword, c :: cs ≠ k.spelling.toList) :
      Spells .identifier (c :: cs)
  | int {ds : Text} (nonempty : ds ≠ []) (digits : ∀ d ∈ ds, isDigit d = true) : Spells .int ds
  | double {ds es : Text} (nonempty : ds ≠ []) (digits : ∀ d ∈ ds, isDigit d = true)
      (nonempty' : es ≠ []) (digits' : ∀ d ∈ es, isDigit d = true) :
      Spells .double (ds ++ '.' :: es)
  | string {text : Text} (quoted : Quoted text) : Spells .string ('"' :: (text ++ ['"']))
  | mark (m : Mark) : Spells (.mark m) m.characters

/-- A sequence of blanks, comments up to the end of their lines and comments up to the first closing
mark, before further text. -/
inductive Trivia (after : Text) : Text → Prop
  | nil : Trivia after []
  | blank {c : Char} {text : Text} (hc : c ∈ [' ', '\t', '\n', '\x0c', '\r'])
      (rest : Trivia after text) : Trivia after (c :: text)
  | line {line text : Text} (one : '\n' ∉ line) (ends : ∀ c ∈ (text ++ after).head?, c = '\n')
      (rest : Trivia after text) : Trivia after ('/' :: '/' :: (line ++ text))
  | block {inside text : Text} (first : ¬['*', '/'] <:+: inside ++ ['*'])
      (rest : Trivia after text) : Trivia after ('/' :: '*' :: (inside ++ '*' :: '/' :: text))

/-- A token stands in a source as its class asks, and is not prolonged by what follows it. -/
structure Token.Exact (source : Text) (t : Token) : Prop where
  nonempty : t.span.start < t.span.stop
  starts : source.Boundary t.span.start
  stops : source.Boundary t.span.stop
  text : source.slice t.span.start t.span.stop = t.text
  spells : Spells t.kind t.text
  longest : ∀ more, more ≠ [] → more <+: Text.dropBytes t.span.stop source →
    ∀ k, ¬Spells k (t.text ++ more)

/-- Only blanks and comments stand before each token, from an offset on. -/
def Gaps (source : Text) : Nat → List Token → Prop
  | _, [] => True
  | start, t :: ts =>
    Trivia (Text.dropBytes t.span.start source) (source.slice start t.span.start) ∧
      Gaps source t.span.stop ts

/-- Tokens cut a source into its words. -/
structure Exact (source : Text) (tokens : List Token) : Prop where
  ends : ∃ ts, tokens = ts ++ [⟨.endOfInput, [], ⟨source.width, source.width⟩⟩] ∧
    ∀ t ∈ ts, t.Exact source
  ordered : tokens.Pairwise fun t u => t.span.stop ≤ u.span.start
  gaps : Gaps source 0 tokens

/-! ## The classes -/

/-- A string goes on over other characters. -/
theorem stringLength?_plain {c : Char} (hc : c ∉ ['"', '\\', '\n']) (cs : Text) :
    stringLength? (c :: cs) = (stringLength? cs).map (· + 1) := by
  simp only [List.mem_cons, List.not_mem_nil, or_false, not_or] at hc
  obtain ⟨hquote, hescape, hbreak⟩ := hc
  apply stringLength?.eq_6
  · exact hbreak
  · exact hquote
  · exact fun h => absurd h hescape
  · exact fun _ _ h => absurd h hescape

/-- A string ends with the first quote behind what is quoted. -/
theorem stringLength?_eq_length {cs : Text} :
    stringLength? cs = some cs.length ↔ ∃ text, cs = text ++ ['"'] ∧ Quoted text := by
  constructor
  · intro h
    induction cs using stringLength?.induct with
    | case1 => cases h
    | case2 => cases h
    | case3 cs =>
        have hnil : cs = [] := by
          rw [stringLength?] at h
          exact List.eq_nil_of_length_eq_zero (Nat.succ.inj (Option.some.inj h)).symm
        exact ⟨[], by rw [hnil]; rfl, .nil⟩
    | case4 => cases h
    | case5 c cs ih =>
        rw [stringLength?, Option.map_eq_some_iff] at h
        obtain ⟨n, hn, hlength⟩ := h
        obtain rfl : n = cs.length := by simpa using hlength
        obtain ⟨text, rfl, quoted⟩ := ih hn
        exact ⟨'\\' :: c :: text, rfl, .escape c quoted⟩
    | case6 c cs noBreak noQuote noEscape noEscaped ih =>
        have hc : c ∉ ['"', '\\', '\n'] := by
          cases cs <;> simp_all
        rw [stringLength?_plain hc, Option.map_eq_some_iff] at h
        obtain ⟨n, hn, hlength⟩ := h
        obtain rfl : n = cs.length := by simpa using hlength
        obtain ⟨text, rfl, quoted⟩ := ih hn
        exact ⟨c :: text, rfl, .plain hc quoted⟩
  · rintro ⟨text, rfl, quoted⟩
    induction quoted with
    | nil => rfl
    | plain hc rest ih =>
        rw [List.cons_append, stringLength?_plain hc, ih]
        rfl
    | escape c rest ih =>
        rw [List.cons_append, List.cons_append, stringLength?, ih]
        rfl

/-- A number is digits, or digits with a point and more digits behind them. -/
theorem spells_of_number {c : Char} {cs : Text} {k : TokenKind} (digit : isDigit c = true)
    (h : number cs = .token k cs.length) : Spells k (c :: cs) := by
  have hsplit := List.takeWhile_append_dropWhile (p := isDigit) (l := cs)
  have hwhole : ∀ d ∈ c :: cs.takeWhile isDigit, isDigit d = true :=
    List.forall_mem_cons.mpr ⟨digit, fun d => List.mem_takeWhile_imp⟩
  rcases number_kind h with rfl | rfl
  · obtain ⟨hlength, -⟩ := number_eq_int.mp h
    rw [takeWhile_eq_self hlength] at hwhole
    exact .int (List.cons_ne_nil c cs) hwhole
  · obtain ⟨hlength, hfraction⟩ := number_eq_double.mp h
    generalize cs.takeWhile isDigit = whole at hsplit hwhole hlength
    generalize cs.dropWhile isDigit = rest at hsplit hfraction hlength
    rw [fractionComes, Bool.and_eq_true] at hfraction
    obtain ⟨tail, rfl⟩ := ByteScan.exists_point hfraction.1
    rw [← hsplit, List.length_append, List.length_cons, List.drop_succ_cons,
      List.drop_zero] at hlength
    have hall : tail.takeWhile isDigit = tail := takeWhile_eq_self (by omega)
    rw [← hsplit, ← List.cons_append]
    apply Spells.double (List.cons_ne_nil c whole) hwhole
    · rintro rfl
      cases hfraction.2
    · exact List.takeWhile_eq_self_iff.mp hall

/-- What is one token on its own is a text of its class. -/
theorem spells_of_lexeme {c : Char} {cs : Text} {k : TokenKind}
    (h : lexeme c cs = .token k cs.length) : Spells k (c :: cs) := by
  rcases token_cases h with ⟨start, hlength, hk⟩ | ⟨digit, hnumber⟩ | ⟨rfl, rfl, hstring⟩ |
    ⟨m, rfl, hstart, hlength⟩
  · have hall : cs.takeWhile isWordPart = cs := takeWhile_eq_self hlength.symm
    rw [hall] at hk
    cases hword : Keyword.ofWord? (c :: cs) with
    | some word =>
        rw [hword] at hk
        rw [Keyword.eq_spelling hword, hk]
        exact .keyword word
    | none =>
        rw [hword] at hk
        rw [hk]
        apply Spells.identifier start (List.takeWhile_eq_self_iff.mp hall)
        intro word hspelling
        rw [hspelling, Keyword.ofWord?_spelling] at hword
        cases hword
  · exact spells_of_number digit hnumber
  · obtain ⟨text, rfl, quoted⟩ := stringLength?_eq_length.mp hstring
    exact .string quoted
  · have hmark := @ofStart?_append c cs [] m
    rw [List.append_nil] at hmark
    rw [← (hmark.mp ⟨hstart, hlength⟩).1]
    exact .mark m

/-- The blanks are five characters. -/
theorem isBlank_iff {c : Char} : isBlank c = true ↔ c ∈ [' ', '\t', '\n', '\x0c', '\r'] := by
  simp [isBlank, or_assoc]

/-- Words and numbers begin with no blank and no comment. -/
theorem lexeme_wordPart {c : Char} (part : isWordPart c = true) (rest : Text) :
    lexeme c rest = tokenAt c rest := by
  apply lexeme_eq_tokenAt
  · rw [← Bool.not_eq_true, isBlank_iff]
    intro hblank
    simp only [List.mem_cons, List.not_mem_nil, or_false] at hblank
    rcases hblank with rfl | rfl | rfl | rfl | rfl <;> cases part
  · apply opensComment_eq_false
    rintro rfl
    cases part

/-- A piece that begins as a word is a token. -/
theorem lexeme_word {c : Char} (start : isWordStart c = true) (rest : Text) :
    lexeme c rest = tokenAt c rest :=
  lexeme_wordPart (by rw [isWordPart, start, Bool.true_or]) rest

/-- A piece that begins with a digit is a number. -/
theorem lexeme_number {c : Char} (digit : isDigit c = true) (rest : Text) :
    lexeme c rest = number rest := by
  have word : isWordStart c = false := by
    rw [← Bool.not_eq_true]
    intro start
    rw [TokenKind.isDigit_eq_false start] at digit
    cases digit
  rw [lexeme_wordPart (by rw [isWordPart, digit, Bool.or_true]), tokenAt_number word digit]

/-- A text of a class is one token on its own. -/
theorem Spells.wellSpelled {k : TokenKind} {text : Text} (h : Spells k text) :
    Lexeme.WellSpelled ⟨k, text⟩ := by
  cases h with
  | keyword k => exact Lexeme.wellSpelled_keyword k
  | mark m => exact Lexeme.wellSpelled_mark m
  | @identifier c cs start more plain =>
      refine ⟨c, cs, rfl, ?_⟩
      have hall : cs.takeWhile isWordPart = cs := List.takeWhile_eq_self_iff.mpr more
      have hword : Keyword.ofWord? (c :: cs) = none := by
        rw [Option.eq_none_iff_forall_ne_some]
        exact fun k hk => plain k (Keyword.eq_spelling hk)
      rw [lexeme_word start, tokenAt_word start, hall, hword]
      rfl
  | @int ds nonempty digits =>
      obtain ⟨c, cs, rfl⟩ := List.exists_cons_of_ne_nil nonempty
      obtain ⟨digit, hmore⟩ := List.forall_mem_cons.mp digits
      have hall : cs.takeWhile isDigit = cs := List.takeWhile_eq_self_iff.mpr hmore
      refine ⟨c, cs, rfl, ?_⟩
      rw [lexeme_number digit]
      apply number_eq_int.mpr
      rw [hall, dropWhile_eq_nil hall]
      exact ⟨rfl, rfl⟩
  | @double ds es nonempty digits nonempty' digits' =>
      obtain ⟨c, cs, rfl⟩ := List.exists_cons_of_ne_nil nonempty
      obtain ⟨digit, hmore⟩ := List.forall_mem_cons.mp digits
      obtain ⟨e, es, rfl⟩ := List.exists_cons_of_ne_nil nonempty'
      have hall : (e :: es).takeWhile isDigit = e :: es := List.takeWhile_eq_self_iff.mpr digits'
      have hpoint : isDigit '.' = false := rfl
      refine ⟨c, cs ++ '.' :: e :: es, rfl, ?_⟩
      rw [lexeme_number digit]
      apply number_eq_double.mpr
      rw [List.takeWhile_append_of_pos hmore, List.dropWhile_append_of_pos hmore,
        List.takeWhile_cons_of_neg (by simp [hpoint]),
        List.dropWhile_cons_of_neg (by simp [hpoint]), List.append_nil, List.drop_succ_cons,
        List.drop_zero, hall]
      refine ⟨by simp [Nat.add_assoc, Nat.add_comm 1], ?_⟩
      exact digits' e List.mem_cons_self
  | @string text quoted =>
      refine ⟨'"', text ++ ['"'], rfl, ?_⟩
      apply lexeme_eq_token.mpr ⟨rfl, rfl, ?_⟩
      exact tokenAt_string.mpr ⟨rfl, stringLength?_eq_length.mpr ⟨text, rfl, quoted⟩⟩

/-! ## Longest tokens -/

/-- What prolongs a token does so whatever comes later. -/
theorem TokenKind.goesOn_of_goesOn {k : TokenKind} {more : Text} (h : k.goesOn more = true)
    (rest : Text) : k.goesOn (more ++ rest) = true := by
  cases more with
  | nil =>
      rw [goesOn_nil] at h
      cases h
  | cons d more =>
      cases k with
      | int =>
          cases more with
          | nil =>
              have hdigit : isDigit d = true := by
                simpa [goesOn, comes, fractionComes] using h
              simp [goesOn, comes, hdigit]
          | cons e more => exact h
      | mark m => exact h
      | _ => exact h

/-- No text of a class is a token with some of the characters behind it. -/
theorem not_spells_of_lexeme {c : Char} {as bs more : Text} {k k' : TokenKind}
    (h : lexeme c (as ++ bs) = .token k as.length) (hmore : more ≠ []) (hbs : more <+: bs) :
    ¬Spells k' (c :: (as ++ more)) := by
  obtain ⟨rest, rfl⟩ := hbs
  obtain ⟨hhere, hstop⟩ := lexeme_append.mp h
  have hstop' : k.goesOn more = false := by
    rw [← Bool.not_eq_true]
    intro hgoes
    rw [TokenKind.goesOn_of_goesOn hgoes rest] at hstop
    cases hstop
  intro hspells
  obtain ⟨_, _, htext, hlonger⟩ := hspells.wellSpelled
  obtain ⟨rfl, rfl⟩ := List.cons.inj htext
  rw [lexeme_append.mpr ⟨hhere, hstop'⟩] at hlonger
  have hlength := (Scan.Lexeme.token.inj hlonger).2
  rw [List.length_append] at hlength
  exact hmore (List.eq_nil_of_length_eq_zero (by omega))

/-! ## Blanks and comments -/

/-- A comment that ends with a text has no closing mark before. -/
theorem exists_block {as : Text} (h : commentLength? as = some as.length) :
    ∃ inside, as = inside ++ ['*', '/'] ∧ ¬['*', '/'] <:+: inside ++ ['*'] := by
  induction as using commentLength?.induct with
  | case1 cs =>
      have hnil : cs = [] := by
        rw [commentLength?] at h
        exact List.eq_nil_of_length_eq_zero (by simpa using (Option.some.inj h).symm)
      refine ⟨[], by rw [hnil]; rfl, fun hlater => ?_⟩
      exact absurd hlater.length_le (by decide)
  | case2 c cs notClosed ih =>
      rw [commentLength?.eq_2 _ _ notClosed, Option.map_eq_some_iff] at h
      obtain ⟨n, hn, hlength⟩ := h
      obtain rfl : n = cs.length := Nat.succ.inj hlength
      obtain ⟨inside, rfl, hfirst⟩ := ih hn
      refine ⟨c :: inside, rfl, ?_⟩
      rw [List.cons_append, List.infix_cons_iff]
      rintro (hhere | hlater)
      · obtain ⟨rfl, rest, hrest⟩ := List.cons_prefix_cons.mp hhere
        cases inside with
        | nil => cases hrest
        | cons d inside =>
            obtain ⟨rfl, -⟩ := List.cons.inj hrest
            exact notClosed _ rfl rfl
      · exact hfirst hlater
  | case3 => cases h

/-- A blank or a comment may stand before what is trivia. -/
theorem Trivia.cons {c : Char} {as text after : Text}
    (h : lexeme c (as ++ (text ++ after)) = .trivia as.length) (rest : Trivia after text) :
    Trivia after (c :: (as ++ text)) := by
  rcases lexeme_eq_trivia.mp h with ⟨hblank, hlength⟩ | ⟨rfl, ⟨line, hline, hlength⟩ |
    ⟨inside, m, hinside, hm, hlength⟩⟩
  · obtain rfl := List.eq_nil_of_length_eq_zero hlength
    exact .blank (isBlank_iff.mp hblank) rest
  · cases as with
    | nil => cases hlength
    | cons d as =>
        obtain ⟨rfl, rfl⟩ := List.cons.inj hline
        obtain ⟨hall, hends⟩ := (takeWhile_append_length as _).mp (Nat.succ.inj hlength)
        refine .line ?_ ?_ rest
        · intro hbreak
          simpa using List.takeWhile_eq_self_iff.mp hall _ hbreak
        · intro c hc
          simpa [comes, Option.mem_def.mp hc] using hends
  · cases as with
    | nil => cases hlength
    | cons d as =>
        obtain ⟨rfl, rfl⟩ := List.cons.inj hinside
        obtain rfl : m = as.length := Nat.succ.inj hlength
        obtain ⟨inside, rfl, hfirst⟩ := exists_block (commentLength?_append.mp hm)
        rw [List.cons_append, List.append_assoc]
        exact .block hfirst rest

/-- The text from an offset on is what stands before another one and what follows from there on. -/
theorem Text.Range.eq_slice_append {source before text : Text} {a b : Nat} (h : source.Range a b)
    (hsource : source = before ++ text) (ha : before.width = a) :
    text = source.slice a b ++ Text.dropBytes b source := by
  subst hsource ha
  obtain ⟨mid, after, rfl, rfl⟩ := h.stop.exists_cut h.le
  rw [Text.slice_eq before mid after rfl rfl, ← List.append_assoc, ← Text.width_append,
    Text.dropBytes_width]

/-! ## The tokens of a source -/

/-- A piece of a text is passed over. -/
theorem Text.passed {source before as bs : Text} {c : Char} {o : Nat}
    (hsource : source = before ++ c :: (as ++ bs)) (ho : before.width = o) :
    source = (before ++ c :: as) ++ bs ∧
      (before ++ c :: as).width = o + Text.width (c :: as) := by
  rw [hsource, List.append_assoc, List.cons_append, Text.width_append, ho]
  exact ⟨rfl, rfl⟩

/-- A piece of a text stands between its offsets. -/
theorem Text.range_passed {source before as bs : Text} {c : Char} {o : Nat}
    (hsource : source = before ++ c :: (as ++ bs)) (ho : before.width = o) :
    source.Range o (o + Text.width (c :: as)) := by
  obtain ⟨hsplit, hwidth⟩ := Text.passed hsource ho
  exact ⟨⟨before, _, hsource, ho⟩, Nat.le_add_right _ _, ⟨_, _, hsplit, hwidth⟩⟩

/-- A blank or a comment before tokens widens the gap before the first of them. -/
theorem Gaps.passed {source before as bs : Text} {c : Char} {o : Nat} {ts : List Token}
    (is : lexeme c (as ++ bs) = .trivia as.length) (hsource : source = before ++ c :: (as ++ bs))
    (ho : before.width = o)
    (hnext : ∀ t ∈ ts.head?, source.Range (o + Text.width (c :: as)) t.span.start)
    (h : Gaps source (o + Text.width (c :: as)) ts) : Gaps source o ts := by
  cases ts with
  | nil => trivial
  | cons t ts =>
      obtain ⟨hsplit, hwidth⟩ := Text.passed hsource ho
      have hstart := hnext t rfl
      have hpiece : source.slice o (o + Text.width (c :: as)) = c :: as := by
        rw [hsource]
        exact Text.slice_eq before (c :: as) bs ho (by rw [ho])
      refine ⟨?_, h.2⟩
      rw [← Text.slice_append (Text.range_passed hsource ho) hstart, hpiece]
      apply Trivia.cons ?_ h.1
      rwa [← hstart.eq_slice_append hsplit hwidth]

/-- What begins with a character and is a token is exact. -/
theorem Scan.exact_of_lexeme (before : Text) {c : Char} {as bs : Text} {k : TokenKind}
    (is : lexeme c (as ++ bs) = .token k as.length) :
    Token.Exact (before ++ c :: (as ++ bs))
      ⟨k, c :: as, ⟨before.width, before.width + Text.width (c :: as)⟩⟩ := by
  obtain ⟨hsplit, hwidth⟩ := Text.passed (rfl : before ++ c :: (as ++ bs) = _) rfl
  have hpos := Char.utf8Size_pos c
  refine ⟨Nat.lt_add_of_pos_right (Nat.lt_of_lt_of_le hpos (Nat.le_add_right _ _)),
    ⟨before, _, rfl, rfl⟩, ⟨_, _, hsplit, hwidth⟩, Text.slice_eq before (c :: as) bs rfl rfl,
    spells_of_lexeme (lexeme_append.mp is).1, ?_⟩
  intro more hmore hbehind k'
  rw [hsplit, ← hwidth, Text.dropBytes_width] at hbehind
  exact not_spells_of_lexeme is hmore hbehind

namespace Scan.Scans

variable {source before text : Text} {o : Nat} {ts : List Token}

/-- **The tokens of a source are exact**, and the end of the input stands behind them. -/
theorem exact (h : Scans o text ts) (hsource : source = before ++ text) (ho : before.width = o) :
    ∃ us, ts = us ++ [⟨.endOfInput, [], ⟨source.width, source.width⟩⟩] ∧
      ∀ u ∈ us, u.Exact source := by
  induction h generalizing before with
  | nil o =>
      rw [hsource, List.append_nil, ho]
      exact ⟨[], rfl, nofun⟩
  | trivia _ _ ih =>
      obtain ⟨hsplit, hwidth⟩ := Text.passed hsource ho
      exact ih hsplit hwidth
  | token is _ ih =>
      obtain ⟨hsplit, hwidth⟩ := Text.passed hsource ho
      obtain ⟨us, rfl, hus⟩ := ih hsplit hwidth
      refine ⟨_ :: us, rfl, List.forall_mem_cons.mpr ⟨?_, hus⟩⟩
      rw [hsource, ← ho]
      exact exact_of_lexeme before is

/-- No token begins before another one ends. -/
theorem disjoint (h : Scans o text ts) : ts.Pairwise fun t u => t.span.stop ≤ u.span.start := by
  induction h with
  | nil o => exact List.pairwise_singleton _ _
  | trivia _ _ ih => exact ih
  | token _ rest ih => exact List.pairwise_cons.mpr ⟨fun u hu => (rest.bounds u hu).1, ih⟩

/-- **Only blanks and comments stand between the tokens of a source.** -/
theorem gaps (h : Scans o text ts) (hsource : source = before ++ text) (ho : before.width = o) :
    Gaps source o ts := by
  induction h generalizing before with
  | nil o =>
      rw [Gaps, Text.slice_self]
      exact ⟨.nil, trivial⟩
  | @trivia o c as bs ts is rest ih =>
      obtain ⟨hsplit, hwidth⟩ := Text.passed hsource ho
      refine Gaps.passed is hsource ho (fun t ht => ?_) (ih hsplit hwidth)
      obtain ⟨us, rfl⟩ := List.head?_eq_some_iff.mp ht
      exact (rest.inOrder hsplit hwidth).1.1
  | token is _ ih =>
      obtain ⟨hsplit, hwidth⟩ := Text.passed hsource ho
      refine ⟨?_, ih hsplit hwidth⟩
      rw [Text.slice_self]
      exact .nil

end Scan.Scans

/-- **Scanning is exact.**  The loop over the bytes of a source ends within one turn for each byte
and one more, cuts no character in two, and ends with the tokens or the error that `tokenize` gives;
and tokens, where it gives some, cut the source into its words. -/
theorem tokenize_exact (source : Text) :
    (∀ turns, source.width < turns →
      ByteScan.scan source turns 0 = ByteScan.outcome (tokenize source)) ∧
    ∀ tokens, tokenize source = .ok tokens → Exact source tokens := by
  refine ⟨fun turns => ByteScan.scan_eq source, fun tokens h => ?_⟩
  have hscans := tokenize_eq_ok.mp h
  have hsource : source = [] ++ source := (List.nil_append source).symm
  exact ⟨hscans.exact hsource rfl, hscans.disjoint, hscans.gaps hsource rfl⟩

/-- A string whose backslash takes the first byte of a character of two, a comment that is almost
closed by its own opening mark, and marks and numbers that stop short of what follows them. -/
theorem tokenize_exact_escaped : ∃ (source : Text) (tokens : List Token),
    source = "\"\\é\\\"😀\"/*/ ☂*/1.5.x<=/ _a9// ü".toList ∧ source.width = 37 ∧
    tokens = [⟨.string, "\"\\é\\\"😀\"".toList, ⟨0, 11⟩⟩, ⟨.double, "1.5".toList, ⟨20, 23⟩⟩,
      ⟨.mark .dot, ['.'], ⟨23, 24⟩⟩, ⟨.identifier, ['x'], ⟨24, 25⟩⟩,
      ⟨.mark .lessEq, ['<', '='], ⟨25, 27⟩⟩, ⟨.mark .slash, ['/'], ⟨27, 28⟩⟩,
      ⟨.identifier, "_a9".toList, ⟨29, 32⟩⟩, ⟨.endOfInput, [], ⟨37, 37⟩⟩] ∧
    tokenize source = .ok tokens ∧
    ByteScan.scan source 38 0 = .ok (ByteScan.placed tokens) ∧ Exact source tokens := by
  have hwidth : Text.width "\"\\é\\\"😀\"/*/ ☂*/1.5.x<=/ _a9// ü".toList = 37 := by
    decide +kernel
  have hread : (tokenize "\"\\é\\\"😀\"/*/ ☂*/1.5.x<=/ _a9// ü".toList).toOption.any (· ==
      [⟨.string, "\"\\é\\\"😀\"".toList, ⟨0, 11⟩⟩, ⟨.double, "1.5".toList, ⟨20, 23⟩⟩,
        ⟨.mark .dot, ['.'], ⟨23, 24⟩⟩, ⟨.identifier, ['x'], ⟨24, 25⟩⟩,
        ⟨.mark .lessEq, ['<', '='], ⟨25, 27⟩⟩, ⟨.mark .slash, ['/'], ⟨27, 28⟩⟩,
        ⟨.identifier, "_a9".toList, ⟨29, 32⟩⟩, ⟨.endOfInput, [], ⟨37, 37⟩⟩]) = true := by
    decide +kernel
  obtain ⟨tokens, htokens, hlist⟩ := exists_ok_of_any hread
  obtain ⟨hbytes, hexact⟩ := tokenize_exact "\"\\é\\\"😀\"/*/ ☂*/1.5.x<=/ _a9// ü".toList
  refine ⟨_, tokens, rfl, hwidth, beq_iff_eq.mp hlist, htokens, ?_, hexact tokens htokens⟩
  rw [hbytes 38 (hwidth ▸ Nat.lt_succ_self 37), htokens]
  rfl

end SharpMutants
