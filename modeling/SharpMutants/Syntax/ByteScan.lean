import SharpMutants.Syntax.Scan

/-!
# Scanning by bytes

The scanner need not look at characters: it can keep a byte offset into the UTF-8
form of the source and tell from single bytes what begins there and where it ends.
Text is cut out of the source only to look up a word or a mark, and to find the end
of a comment.  A cut that would split a character stops the scanner, and so does
a bound on the number of turns of its loop.
-/

namespace SharpMutants

namespace Text

/-- The UTF-8 form of a text. -/
def bytes (text : Text) : List UInt8 := text.flatMap String.utf8EncodeChar

/-- The text from a byte offset on, if a character begins or the text ends there. -/
def after? : Text → Nat → Option Text
  | cs, 0 => some cs
  | [], _ + 1 => none
  | c :: cs, n + 1 => if c.utf8Size ≤ n + 1 then after? cs (n + 1 - c.utf8Size) else none

/-- The byte offset at which another text first stands in a text. -/
def find? : Text → Text → Option Nat
  | [], pattern => if pattern.isEmpty then some 0 else none
  | c :: cs, pattern =>
    if pattern.isPrefixOf (c :: cs) then some 0 else (find? cs pattern).map (· + c.utf8Size)

end Text

/-- The marks in the order in which they are tried. -/
def Mark.table : List Mark :=
  [plusPlus, minusMinus, plusEq, minusEq, starEq, slashEq, percentEq, eqEq, bangEq, lessEq,
    greaterEq, andAnd, orOr, openBrace, closeBrace, openParen, closeParen, semicolon, comma, dot,
    plus, minus, star, slash, percent, eq, less, greater, bang]

namespace ByteScan

/-- The byte of an ASCII character. -/
def isByte (c : Char) (b : UInt8) : Bool := b == c.toUInt8

/-- A byte that is between those of two ASCII characters. -/
def isBetween (c d : Char) (b : UInt8) : Bool := decide (c.toUInt8 ≤ b ∧ b ≤ d.toUInt8)

/-- Bytes between tokens. -/
def isBlank (b : UInt8) : Bool :=
  isByte ' ' b || isByte '\t' b || isByte '\n' b || isByte '\x0c' b || isByte '\r' b

/-- Decimal digits. -/
def isDigit (b : UInt8) : Bool := isBetween '0' '9' b

/-- Bytes that begin a word. -/
def isWordStart (b : UInt8) : Bool := isBetween 'a' 'z' b || isBetween 'A' 'Z' b || isByte '_' b

/-- Bytes that continue a word. -/
def isWordPart (b : UInt8) : Bool := isWordStart b || isDigit b

/-- Number of bytes up to and with the closing quote, if the string closes on its line.  A
backslash takes the next byte with it. -/
def stringLength? : List UInt8 → Option Nat
  | [] => none
  | b :: bs =>
    if isByte '\n' b then none
    else if isByte '\\' b then
      match bs with
      | [] => none
      | _ :: bs => (stringLength? bs).map (· + 2)
    else if isByte '"' b then some 1
    else (stringLength? bs).map (· + 1)

/-- Why the scanner stops before the end of the source. -/
inductive Stop where
  | error (offset : Nat) (cause : ParseCause)
  /-- A cut would have split a character. -/
  | insideCharacter (offset : Nat)
  | outOfTurns

/-- The source from an offset on. -/
def textFrom (source : Text) (start : Nat) : Except Stop Text :=
  match source.after? start with
  | some text => .ok text
  | none => .error (.insideCharacter start)

/-- The source between two offsets. -/
def textBetween (source : Text) (start stop : Nat) : Except Stop Text := do
  let text ← textFrom source start
  match text.before? (stop - start) with
  | some text => .ok text
  | none => .error (.insideCharacter stop)

/-- What a turn of the loop finds: the class of a token, or none for a blank or a comment, and the
offset behind it. -/
abbrev Piece := Option TokenKind × Nat

/-- A comment up to the end of its line. -/
def lineAt (source text : Text) (start : Nat) : Piece :=
  (none, ((text.find? ['\n']).map (start + ·)).getD source.bytes.length)

/-- A comment up to its closing mark. -/
def commentAt (source : Text) (start : Nat) : Except Stop Piece := do
  let inside ← textFrom source (start + 2)
  match inside.find? ['*', '/'] with
  | some n => .ok (none, start + n + 4)
  | none => .error (.error start .unterminatedComment)

/-- A word, which is cut out to be looked up among the keywords. -/
def wordAt (source : Text) (start : Nat) : Except Stop Piece := do
  let stop := start + ((source.bytes.drop start).takeWhile isWordPart).length
  let word ← textBetween source start stop
  .ok (some (((Keyword.ofWord? word).map TokenKind.keyword).getD .identifier), stop)

/-- A number. -/
def numberAt (source : Text) (start : Nat) : Piece :=
  let stop := start + ((source.bytes.drop start).takeWhile isDigit).length
  let behind := source.bytes.drop stop
  if behind.head?.any (isByte '.') && behind.tail.head?.any isDigit then
    (some .double, stop + 1 + (behind.tail.takeWhile isDigit).length)
  else (some .int, stop)

/-- A string. -/
def stringAt (source : Text) (start : Nat) : Except Stop Piece :=
  match stringLength? (source.bytes.drop (start + 1)) with
  | some n => .ok (some .string, start + 1 + n)
  | none => .error (.error start .unterminatedString)

/-- The first mark of the table with which a text begins. -/
def markAt (text : Text) (start : Nat) : Except Stop Piece :=
  match Mark.table.find? fun m => m.characters.isPrefixOf text with
  | some m => .ok (some (.mark m), start + Text.width m.characters)
  | none => .error (.error start (.unexpectedCharacter (text.head?.getD '?')))

/-- What begins at an offset, with the byte that stands there. -/
def pieceAt (source : Text) (start : Nat) (b : UInt8) : Except Stop Piece :=
  if isBlank b then .ok (none, start + 1)
  else do
    let text ← textFrom source start
    if ['/', '/'].isPrefixOf text then .ok (lineAt source text start)
    else if ['/', '*'].isPrefixOf text then commentAt source start
    else if isWordStart b then wordAt source start
    else if isDigit b then .ok (numberAt source start)
    else if isByte '"' b then stringAt source start
    else markAt text start

/-- The classes and places of the tokens from an offset on, in a number of turns. -/
def scan (source : Text) : Nat → Nat → Except Stop (List (TokenKind × Span))
  | 0, _ => .error .outOfTurns
  | turns + 1, start =>
    match source.bytes[start]? with
    | none => .ok [(.endOfInput, ⟨source.bytes.length, source.bytes.length⟩)]
    | some b =>
      match pieceAt source start b with
      | .error stop => .error stop
      | .ok (kind?, stop) =>
        (scan source turns stop).map
          ((kind?.map fun kind => (kind, (⟨start, stop⟩ : Span))).toList ++ ·)

end ByteScan

end SharpMutants
