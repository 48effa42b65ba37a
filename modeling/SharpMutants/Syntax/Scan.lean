import SharpMutants.Syntax.ParseError

/-!
# Scanning a source into tokens

`lexeme` looks at the characters that follow a place and says what begins there:
blank space, a comment, a token, or nothing legal.  It answers with the number of
characters that the piece has besides its first one, so `scan` can walk down the
source by structural recursion, passing over the characters of the piece that it
has just met.

Blank space is the ASCII kind: space, tab, line feed, form feed and carriage
return.  A word is read to its end before it is looked up among the keywords, a
number takes a fraction only if a digit follows the point, and the longest mark
wins.
-/

namespace SharpMutants

namespace Scan

/-- Characters between tokens. -/
def isBlank (c : Char) : Bool :=
  c == ' ' || c == '\t' || c == '\n' || c == '\x0c' || c == '\r'

/-- Decimal digits. -/
def isDigit (c : Char) : Bool := decide ('0' ≤ c ∧ c ≤ '9')

/-- Characters that begin a word: ASCII letters and the underscore. -/
def isWordStart (c : Char) : Bool :=
  decide ('a' ≤ c ∧ c ≤ 'z') || decide ('A' ≤ c ∧ c ≤ 'Z') || c == '_'

/-- Characters that continue a word. -/
def isWordPart (c : Char) : Bool := isWordStart c || isDigit c

/-- Number of characters up to and with the first `*/`, if there is one. -/
def commentLength? : Text → Option Nat
  | '*' :: '/' :: _ => some 2
  | _ :: cs => (commentLength? cs).map (· + 1)
  | [] => none

/-- Number of characters up to and with the closing quote, if the string closes on its
line.  A backslash takes the next character with it, whatever it is. -/
def stringLength? : Text → Option Nat
  | [] => none
  | '\n' :: _ => none
  | '"' :: _ => some 1
  | ['\\'] => none
  | '\\' :: _ :: cs => (stringLength? cs).map (· + 2)
  | _ :: cs => (stringLength? cs).map (· + 1)

/-- The piece of text that begins at a place.  Lengths do not count its first character. -/
inductive Lexeme where
  | trivia (more : Nat)
  | token (kind : TokenKind) (more : Nat)
  | error (cause : ParseCause)

/-- A number: digits, and a fraction if a point and a digit follow. -/
def number (rest : Text) : Lexeme :=
  let whole := rest.takeWhile isDigit
  match rest.drop whole.length with
  | '.' :: d :: after =>
    if isDigit d then .token .double (whole.length + 2 + (after.takeWhile isDigit).length)
    else .token .int whole.length
  | _ => .token .int whole.length

/-- What begins with a character that is no blank and begins no comment. -/
def tokenAt (c : Char) (rest : Text) : Lexeme :=
  if isWordStart c then
    let more := rest.takeWhile isWordPart
    match Keyword.ofWord? (c :: more) with
    | some k => .token (.keyword k) more.length
    | none => .token .identifier more.length
  else if isDigit c then number rest
  else if c == '"' then
    match stringLength? rest with
    | some n => .token .string n
    | none => .error .unterminatedString
  else
    match Mark.ofStart? (c :: rest) with
    | some m => .token (.mark m) (m.characters.length - 1)
    | none => .error (.unexpectedCharacter c)

/-- What begins with the character `c` when `rest` follows it. -/
def lexeme (c : Char) (rest : Text) : Lexeme :=
  if isBlank c then .trivia 0
  else
    match c, rest with
    | '/', '/' :: line => .trivia ((line.takeWhile (· != '\n')).length + 1)
    | '/', '*' :: inside =>
      match commentLength? inside with
      | some n => .trivia (n + 1)
      | none => .error .unterminatedComment
    | c, rest => tokenAt c rest

/-- The tokens of a text that begins at byte `offset`, after `skip` characters of a piece
already met; an error comes with its offset. -/
def scan : Nat → Nat → Text → Except (Nat × ParseCause) (List Token)
  | _, offset, [] => .ok [⟨.endOfInput, [], ⟨offset, offset⟩⟩]
  | skip + 1, offset, c :: cs => scan skip (offset + c.utf8Size) cs
  | 0, offset, c :: cs =>
    match lexeme c cs with
    | .trivia more => scan more (offset + c.utf8Size) cs
    | .token kind more =>
      let text := c :: cs.take more
      (scan more (offset + c.utf8Size) cs).map
        (⟨kind, text, ⟨offset, offset + Text.width text⟩⟩ :: ·)
    | .error cause => .error (offset, cause)

end Scan

/-- The tokens of a source in order, with one for the end of the input. -/
def tokenize (source : Text) : Except ParseError (List Token) :=
  (Scan.scan 0 0 source).mapError fun (offset, cause) => .atOffset source offset cause

end SharpMutants
