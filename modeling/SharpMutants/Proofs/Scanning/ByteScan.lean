import SharpMutants.Proofs.Scanning.Bytes

/-!
# The scanner of bytes

Looking at bytes finds what looking at characters does: from a boundary of the source,
every piece ends at a boundary again (`pieceAt_eq`), so no character is split,
and the loop ends with the tokens or the error of `Scan.scan` (`scan_eq`).
-/

namespace SharpMutants.ByteScan

variable {before cs : Text} {c : Char}

/-- The text from behind some text is what follows it. -/
theorem textFrom_eq (before text : Text) :
    textFrom (before ++ text) before.width = .ok text := by
  rw [textFrom, Text.after?_width]

/-- The text between two others is the one in the middle. -/
theorem textBetween_eq (before text after : Text) :
    textBetween (before ++ (text ++ after)) before.width (before.width + text.width) =
      .ok text := by
  simp only [textBetween, textFrom_eq, bind, Except.bind, Nat.add_sub_cancel_left,
    Text.before?_width]

/-- The first characters, as many as belong to a class, are those of the class. -/
theorem take_takeWhile (p : Char → Bool) (text : Text) :
    text.take (text.takeWhile p).length = text.takeWhile p :=
  (List.prefix_iff_eq_take.mp (List.takeWhile_prefix p)).symm

/-- What a turn has to find where a piece begins. -/
def found (start : Nat) (c : Char) (cs : Text) : Scan.Lexeme → Except Stop Piece
  | .trivia more => .ok (none, start + Text.width (c :: cs.take more))
  | .token kind more => .ok (some kind, start + Text.width (c :: cs.take more))
  | .error cause => .error (.error start cause)

/-- A word in bytes. -/
theorem wordAt_eq (word : Scan.isWordStart c = true) :
    wordAt (before ++ c :: cs) before.width = found before.width c cs (Scan.tokenAt c cs) := by
  have hpart : Scan.isWordPart c = true := by rw [Scan.isWordPart, word, Bool.true_or]
  have htext : c :: cs = (c :: cs.takeWhile Scan.isWordPart) ++ cs.dropWhile Scan.isWordPart := by
    rw [List.cons_append, List.takeWhile_append_dropWhile]
  have hlength : ((Text.bytes (c :: cs)).takeWhile isWordPart).length =
      Text.width (c :: cs.takeWhile Scan.isWordPart) := by
    rw [decides_isWordPart.takeWhile_bytes, List.takeWhile_cons_of_pos hpart, Text.length_bytes]
  rw [Scan.tokenAt_word word, found, take_takeWhile]
  simp only [wordAt, Text.drop_bytes, hlength]
  conv_lhs => rw [htext, textBetween_eq]
  rfl

/-- A number in bytes. -/
theorem numberAt_eq (digit : Scan.isDigit c = true) :
    .ok (numberAt (before ++ c :: cs) before.width) = found before.width c cs (Scan.number cs) := by
  have hsplit := List.takeWhile_append_dropWhile (p := Scan.isDigit) (l := cs)
  have hdigits : ((Text.bytes (c :: cs)).takeWhile isDigit).length =
      Text.width (c :: cs.takeWhile Scan.isDigit) := by
    rw [decides_isDigit.takeWhile_bytes, List.takeWhile_cons_of_pos digit, Text.length_bytes]
  rw [Scan.number_eq, numberAt, Text.drop_bytes, hdigits]
  generalize hwhole : cs.takeWhile Scan.isDigit = whole at hsplit ⊢
  generalize hrest : cs.dropWhile Scan.isDigit = rest at hsplit ⊢
  have hbehind : (Text.bytes (before ++ c :: cs)).drop (before.width + Text.width (c :: whole)) =
      Text.bytes rest := by
    rw [← hsplit, ← List.cons_append, ← List.append_assoc, ← Text.width_append, Text.drop_bytes]
  simp only [hbehind, fractionComes_bytes]
  by_cases hcomes : Scan.fractionComes rest = true
  · obtain ⟨tail, rfl⟩ := exists_point (Bool.and_eq_true_iff.mp hcomes).1
    have htail : (Text.bytes ('.' :: tail)).tail = Text.bytes tail := rfl
    have htake : (whole ++ '.' :: tail).take
        (whole.length + 1 + (tail.takeWhile Scan.isDigit).length) =
        whole ++ '.' :: tail.takeWhile Scan.isDigit := by
      rw [Nat.add_assoc, List.take_length_add_append, Nat.add_comm 1, List.take_succ_cons,
        take_takeWhile]
    have hwidth : Text.width (c :: (whole ++ '.' :: tail.takeWhile Scan.isDigit)) =
        Text.width (c :: whole) + 1 + Text.width (tail.takeWhile Scan.isDigit) := by
      rw [← List.cons_append, Text.width_append, Nat.add_assoc]
      rfl
    rw [if_pos hcomes, if_pos hcomes, htail, decides_isDigit.takeWhile_bytes, Text.length_bytes]
    simp only [found, List.drop_succ_cons, List.drop_zero]
    rw [← hsplit, htake, hwidth, ← Nat.add_assoc, ← Nat.add_assoc]
  · rw [if_neg hcomes, if_neg hcomes, found, ← hsplit, List.take_left]

/-- A string in bytes. -/
theorem stringAt_eq : stringAt (before ++ '"' :: cs) before.width =
    found before.width '"' cs
      (match Scan.stringLength? cs with
        | some n => .token .string n
        | none => .error .unterminatedString) := by
  have hdrop : (Text.bytes (before ++ '"' :: cs)).drop (before.width + 1) = Text.bytes cs := by
    have hquote : before.width + 1 = Text.width (before ++ ['"']) := by
      rw [Text.width_append]
      rfl
    rw [hquote, List.append_cons before '"' cs, Text.drop_bytes]
  rw [stringAt, hdrop, stringLength?_bytes]
  cases Scan.stringLength? cs with
  | none => rfl
  | some n =>
      simp only [Option.map_some, found, Text.width, ← Nat.add_assoc]
      rfl

/-- A mark in bytes. -/
theorem markAt_eq (start : Nat) : markAt (c :: cs) start =
    found start c cs
      (match Mark.ofStart? (c :: cs) with
        | some m => .token (.mark m) (m.characters.length - 1)
        | none => .error (.unexpectedCharacter c)) := by
  rw [markAt, Mark.find?_table]
  cases hm : Mark.ofStart? (c :: cs) with
  | none => rfl
  | some m =>
      rw [← Mark.find?_table] at hm
      have hstarts : m.characters.isPrefixOf (c :: cs) = true :=
        List.find?_some (p := fun m => Mark.characters m |>.isPrefixOf (c :: cs)) hm
      have hmark := List.prefix_iff_eq_take.mp (List.isPrefixOf_iff_prefix.mp hstarts)
      have hlength : m.characters.length = m.characters.length - 1 + 1 := by cases m <;> rfl
      rw [hlength, List.take_succ_cons] at hmark
      exact congrArg (fun text => Except.ok (some (TokenKind.mark m), start + Text.width text))
        hmark

/-- A comment up to the end of its line, in bytes. -/
theorem lineAt_eq (before line : Text) :
    .ok (lineAt (before ++ '/' :: '/' :: line) ('/' :: '/' :: line) before.width) =
      found before.width '/' ('/' :: line)
        (.trivia ((line.takeWhile (· != '\n')).length + 1)) := by
  have hline : ('/' :: '/' :: line).takeWhile (· != '\n') =
      '/' :: '/' :: line.takeWhile (· != '\n') := rfl
  rw [lineAt, Text.find?_newline, hline, found, List.take_succ_cons, take_takeWhile]
  by_cases hmem : '\n' ∈ '/' :: '/' :: line
  · rw [if_pos hmem]
    rfl
  · rw [if_neg hmem]
    have hall : line.takeWhile (· != '\n') = line := by
      rw [List.takeWhile_eq_self_iff]
      rintro c hc
      rw [bne_iff_ne]
      rintro rfl
      exact hmem (by simp [hc])
    rw [hall, Option.map_none, Option.getD_none, Text.length_bytes, Text.width_append]

/-- A comment up to its closing mark, in bytes. -/
theorem commentAt_eq (before inside : Text) :
    commentAt (before ++ '/' :: '*' :: inside) before.width =
      found before.width '/' ('*' :: inside)
        (match Scan.commentLength? inside with
          | some n => .trivia (n + 1)
          | none => .error .unterminatedComment) := by
  have hopen : before.width + 2 = Text.width (before ++ ['/', '*']) := by
    rw [Text.width_append]
    rfl
  have hinside : textFrom (before ++ '/' :: '*' :: inside) (before.width + 2) = .ok inside := by
    have hsplit : before ++ '/' :: '*' :: inside = (before ++ ['/', '*']) ++ inside := by simp
    rw [hopen, hsplit, textFrom_eq]
  have hclose := Text.find?_close inside
  rw [commentAt, hinside]
  show (match inside.find? ['*', '/'] with
    | some n => _
    | none => _) = _
  cases hfound : inside.find? ['*', '/'] with
  | none =>
      rw [hfound, Option.map_none, eq_comm, Option.map_eq_none_iff] at hclose
      rw [hclose]
      rfl
  | some n =>
      rw [hfound, Option.map_some, eq_comm, Option.map_eq_some_iff] at hclose
      obtain ⟨m, hm, hwidth⟩ := hclose
      rw [hm]
      have htake : Text.width ('/' :: ('*' :: inside).take (m + 1)) = n + 4 := by
        rw [List.take_succ_cons, Text.width, Text.width, hwidth]
        have hmarks : '/'.utf8Size = 1 ∧ '*'.utf8Size = 1 := ⟨rfl, rfl⟩
        omega
      rw [found, htake, ← Nat.add_assoc]

/-- The first byte of a character is of a class if the character is. -/
theorem Decides.first {p : UInt8 → Bool} {q : Char → Bool} (h : Decides p q) {b : UInt8}
    {bs : List UInt8} (hbytes : String.utf8EncodeChar c = b :: bs) : p b = q c := by
  obtain ⟨b', bs', hbytes', hp, -⟩ := h c
  obtain ⟨rfl, rfl⟩ := List.cons.inj (hbytes.symm.trans hbytes')
  exact hp

/-- What is no blank and no comment. -/
theorem tokenAt_eq (before cs : Text) (c : Char) {b : UInt8} {bs : List UInt8}
    (hbytes : String.utf8EncodeChar c = b :: bs) :
    (if isWordStart b then wordAt (before ++ c :: cs) before.width
      else if isDigit b then .ok (numberAt (before ++ c :: cs) before.width)
      else if isByte '"' b then stringAt (before ++ c :: cs) before.width
      else markAt (c :: cs) before.width) =
      found before.width c cs (Scan.tokenAt c cs) := by
  have hquote : isByte '"' b = (c == '"') := (decides_isByte (by decide)).first hbytes
  rw [decides_isWordStart.first hbytes, decides_isDigit.first hbytes, hquote]
  cases word : Scan.isWordStart c with
  | true => exact wordAt_eq word
  | false =>
      cases digit : Scan.isDigit c with
      | true =>
          rw [Scan.tokenAt_number word digit]
          exact numberAt_eq digit
      | false =>
          by_cases hc : c = '"'
          · subst hc
            exact stringAt_eq
          · have hother : (c == '"') = false := beq_eq_false_iff_ne.mpr hc
            simp only [Scan.tokenAt, word, digit, hother, Bool.false_eq_true, if_false]
            exact markAt_eq before.width

/-- **A turn finds what begins with the next character.** -/
theorem pieceAt_eq (before cs : Text) (c : Char) {b : UInt8} {bs : List UInt8}
    (hbytes : String.utf8EncodeChar c = b :: bs) :
    pieceAt (before ++ c :: cs) before.width b = found before.width c cs (Scan.lexeme c cs) := by
  rw [pieceAt, decides_isBlank.first hbytes, textFrom_eq]
  cases hblank : Scan.isBlank c with
  | true =>
      have hlexeme : Scan.lexeme c cs = .trivia 0 := Scan.lexeme_eq_trivia.mpr (.inl ⟨hblank, rfl⟩)
      have hone : c.utf8Size = 1 := by
        obtain ⟨b', bs', hbytes', -, hnil⟩ := decides_isBlank c
        rw [← String.length_utf8EncodeChar, hbytes', hnil hblank]
        rfl
      rw [if_pos rfl, hlexeme, found, List.take_zero, Text.width, Text.width, hone]
  | false =>
      rw [if_neg Bool.false_ne_true]
      show (if ['/', '/'].isPrefixOf (c :: cs) then _ else _) = _
      by_cases hline : ['/', '/'] <+: c :: cs
      · obtain ⟨line, hcs⟩ := hline
        obtain ⟨rfl, rfl⟩ := List.cons.inj hcs
        exact lineAt_eq before line
      · rw [if_neg (by rwa [List.isPrefixOf_iff_prefix])]
        by_cases hblock : ['/', '*'] <+: c :: cs
        · obtain ⟨inside, hcs⟩ := hblock
          obtain ⟨rfl, rfl⟩ := List.cons.inj hcs
          exact commentAt_eq before inside
        · have hplain : Scan.opensComment c cs = false := by
            cases cs with
            | nil => simp [Scan.opensComment, Scan.comes]
            | cons d cs =>
                simp only [List.cons_prefix_cons, List.nil_prefix, and_true] at hline hblock
                simp only [Scan.opensComment, Scan.comes, List.head?_cons, Option.any_some]
                grind
          rw [if_neg (by rwa [List.isPrefixOf_iff_prefix]), Scan.lexeme_eq_tokenAt hblank hplain]
          exact tokenAt_eq before cs c hbytes

/-- The classes and places of some tokens. -/
def placed (ts : List Token) : List (TokenKind × Span) := ts.map fun t => (t.kind, t.span)

/-- What the loop has to end with, by what looking at characters ends with. -/
def outcome : Except ParseError (List Token) → Except Stop (List (TokenKind × Span))
  | .ok ts => .ok (placed ts)
  | .error e => .error (.error e.offset e.cause)

/-- The tokens or the error from an offset on. -/
def scanned (source : Text) (offset : Nat) (text : Text) : Except ParseError (List Token) :=
  (Scan.scan 0 offset text).mapError fun (offset, cause) => .atOffset source offset cause

/-- The loop goes on from a boundary as looking at characters does, in fewer turns than there are
bytes left and one more. -/
theorem scan_from (before rest : Text) {turns : Nat} (hturns : rest.width < turns) :
    scan (before ++ rest) turns before.width =
      outcome (scanned (before ++ rest) before.width rest) := by
  induction turns generalizing before rest with
  | zero => omega
  | succ turns ih =>
      have hdrop : (Text.bytes (before ++ rest))[before.width]? = (Text.bytes rest).head? := by
        rw [← List.head?_drop, Text.drop_bytes]
      rw [scan, hdrop]
      cases rest with
      | nil =>
          rw [List.append_nil, Text.length_bytes]
          rfl
      | cons c cs =>
          obtain ⟨b, bs, hbytes, -⟩ := exists_bytes c
          have hhead : (Text.bytes (c :: cs)).head? = some b := by
            rw [Text.bytes_cons, hbytes]
            rfl
          have hstep : ∀ as bs : Text, cs = as ++ bs → scan (before ++ c :: cs) turns
              (before.width + Text.width (c :: as)) = outcome (scanned (before ++ c :: cs)
                (before.width + Text.width (c :: as)) bs) := by
            rintro as bs rfl
            have hpos := Char.utf8Size_pos c
            rw [Text.width, Text.width_append] at hturns
            have hbehind := ih (before ++ c :: as) bs (by omega)
            rwa [List.append_assoc, List.cons_append, Text.width_append] at hbehind
          rw [hhead, scanned, Scan.scan]
          simp only [pieceAt_eq before cs c hbytes]
          cases hlexeme : Scan.lexeme c cs with
          | trivia more =>
              obtain ⟨as, bs, rfl, rfl⟩ := Scan.exists_append (Scan.le_length_of_trivia hlexeme)
              simp only [found, List.take_left, Scan.scan_pass_cons, hstep as bs rfl, scanned]
              cases Scan.scan 0 (before.width + Text.width (c :: as)) bs <;> rfl
          | token kind more =>
              obtain ⟨as, bs, rfl, rfl⟩ := Scan.exists_append (Scan.le_length_of_token hlexeme)
              simp only [found, List.take_left, Scan.scan_pass_cons, hstep as bs rfl, scanned]
              cases Scan.scan 0 (before.width + Text.width (c :: as)) bs <;> rfl
          | error cause => rfl

/-- **The loop ends with what looking at characters ends with**: with the same tokens or the same
error, in no more turns than there are bytes and one more, and without splitting a character. -/
theorem scan_eq (source : Text) {turns : Nat} (hturns : source.width < turns) :
    scan source turns 0 = outcome (tokenize source) :=
  scan_from [] source hturns

end SharpMutants.ByteScan
