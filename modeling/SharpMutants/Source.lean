import SharpMutants.Text

/-!
# Sources

A source is a text that is looked up by byte offset again and again.  Beside the
text it holds, for every byte offset, what is left of the text there and the
position that a reader counts, so a slice costs no more than its own length.

The key local facts are `slice_eq` and `positionAt_eq`: looking up in a source is
walking through its text.
-/

namespace SharpMutants

namespace Text

/-- What is left of a text at each byte offset, its end included. -/
def rests : Text → List Text
  | [] => [[]]
  | c :: cs => (c :: cs) :: (List.replicate (c.utf8Size - 1) cs ++ rests cs)

/-- An array with a value added a number of times. -/
def pushMany {α : Type} (acc : Array α) (a : α) : Nat → Array α
  | 0 => acc
  | n + 1 => pushMany (acc.push a) a n

/-- Pushing an element so many times appends it so many times. -/
theorem toList_pushMany {α : Type} (acc : Array α) (a : α) (n : Nat) :
    (pushMany acc a n).toList = acc.toList ++ List.replicate n a := by
  induction n generalizing acc with
  | zero => simp [pushMany]
  | succ n ih => simp [pushMany, ih, List.replicate_succ]

/-- An array with the rests of a text added. -/
def pushRests (acc : Array Text) : Text → Array Text
  | [] => acc.push []
  | c :: cs => pushRests (pushMany (acc.push (c :: cs)) cs (c.utf8Size - 1)) cs

/-- The rests of a text are appended to those before. -/
theorem toList_pushRests (acc : Array Text) (text : Text) :
    (pushRests acc text).toList = acc.toList ++ rests text := by
  induction text generalizing acc with
  | nil => simp [pushRests, rests]
  | cons c cs ih => simp [pushRests, rests, ih, toList_pushMany]

/-- The rest of a text at an offset is what follows that many bytes. -/
theorem getElem?_rests (text : Text) (n : Nat) :
    ((rests text)[n]?).getD [] = dropBytes n text := by
  induction text generalizing n with
  | nil => cases n <;> simp [rests, dropBytes]
  | cons c cs ih =>
      cases n with
      | zero => simp [rests, dropBytes]
      | succ n =>
          have hc := Char.utf8Size_pos c
          rw [rests, List.getElem?_cons_succ, dropBytes]
          by_cases h : n < c.utf8Size - 1
          · have hzero : n + 1 - c.utf8Size = 0 := by omega
            rw [List.getElem?_append_left (by simpa using h), List.getElem?_replicate, if_pos h,
              hzero, Option.getD_some, dropBytes]
          · rw [List.getElem?_append_right (by simpa using h), List.length_replicate, ih]
            congr 1
            omega

/-- The positions of the byte offsets of a text that begins at `here`, its end included.
An offset inside a character stands for the end of the text, which is at `last`. -/
def positions (last here : Position) : Text → List Position
  | [] => [here]
  | c :: cs => here :: (List.replicate (c.utf8Size - 1) last ++ positions last (here.advance c) cs)

/-- An array with the positions of a text added. -/
def pushPositions (last here : Position) (acc : Array Position) : Text → Array Position
  | [] => acc.push here
  | c :: cs =>
    pushPositions last (here.advance c) (pushMany (acc.push here) last (c.utf8Size - 1)) cs

/-- The places of a text are appended to those before. -/
theorem toList_pushPositions (last here : Position) (acc : Array Position) (text : Text) :
    (pushPositions last here acc text).toList = acc.toList ++ positions last here text := by
  induction text generalizing acc here with
  | nil => simp [pushPositions, positions]
  | cons c cs ih => simp [pushPositions, positions, ih, toList_pushMany]

/-- The place at an offset is counted from the characters before it, or is the last one. -/
theorem getElem?_positions (last here : Position) (text : Text) (n : Nat) :
    ((positions last here text)[n]?).getD last =
      ((before? text n).map fun read => read.foldl Position.advance here).getD last := by
  induction text generalizing n here with
  | nil => cases n <;> simp [positions, before?]
  | cons c cs ih =>
      cases n with
      | zero => simp [positions, before?]
      | succ n =>
          have hc := Char.utf8Size_pos c
          rw [positions, List.getElem?_cons_succ, before?]
          by_cases h : n < c.utf8Size - 1
          · rw [List.getElem?_append_left (by simpa using h), List.getElem?_replicate, if_pos h,
              if_neg (by omega)]
            rfl
          · have hn : n - (c.utf8Size - 1) = n + 1 - c.utf8Size := by omega
            rw [List.getElem?_append_right (by simpa using h), List.length_replicate, ih, hn,
              if_pos (by omega), Option.map_map]
            rfl

end Text

/-- A text with its byte offsets looked up beforehand. -/
structure Source where
  text : Text
  /-- The position of the end. -/
  last : Text.Position
  rests : Array Text
  positions : Array Text.Position
  last_eq : last = text.foldl Text.Position.advance .first
  rests_eq : rests.toList = Text.rests text
  positions_eq : positions.toList = Text.positions last .first text

namespace Source

/-- The source of a text. -/
def ofText (text : Text) : Source :=
  let last := text.foldl Text.Position.advance .first
  { text := text
    last := last
    rests := Text.pushRests #[] text
    positions := Text.pushPositions last .first #[] text
    last_eq := rfl
    rests_eq := Text.toList_pushRests #[] text
    positions_eq := Text.toList_pushPositions last .first #[] text }

@[simp] theorem text_ofText (text : Text) : (ofText text).text = text := rfl

/-- The text between two byte offsets. -/
def slice (s : Source) (start stop : Nat) : Text :=
  Text.takeBytes (stop - start) ((s.rests[start]?).getD [])

/-- A slice of a source is that of its text. -/
theorem slice_eq (s : Source) (start stop : Nat) :
    s.slice start stop = Text.slice s.text start stop := by
  rw [slice, ← Array.getElem?_toList, s.rests_eq, Text.getElem?_rests, Text.slice]

/-- The position of a byte offset. -/
def positionAt (s : Source) (offset : Nat) : Text.Position := (s.positions[offset]?).getD s.last

/-- The place of an offset in a source is that in its text. -/
theorem positionAt_eq (s : Source) (offset : Nat) :
    s.positionAt offset = Text.positionAt s.text offset := by
  rw [positionAt, ← Array.getElem?_toList, s.positions_eq, Text.getElem?_positions, s.last_eq,
    Text.positionAt]
  cases Text.before? s.text offset <;> rfl

end Source

end SharpMutants
