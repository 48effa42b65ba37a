import SharpMutants.Proofs.Scanning.Adjacent

/-!
# Texts made of words and blanks

`Reads text ls` says that a text is cut into the words `ls`, with blanks and comments
between them.  A blank in front changes nothing (`reads_blank`), and a word in front is
read as that word exactly if what follows does not prolong it (`reads_word`).

`Prints ok text ls` says the same of a text that stands before any other one that breaks off
an expression: it is read as the words `ls`, and what follows it on its own, exactly if `ok`
holds.  Texts with this property may stand one after another (`Prints.append`), with
separators between them (`Prints.joined`).
-/

namespace SharpMutants

open Scan

/-- A text is cut into some words. -/
def Reads (text : Text) (ls : List Lexeme) : Prop := ∃ last, Stretch [] text ls last

namespace TokenKind

theorem goesOn_nil {k : TokenKind} : k.goesOn [] = false := by
  cases k with
  | mark m => cases m <;> rfl
  | _ => rfl

/-- Nothing prolongs a point or a closing brace. -/
theorem goesOn_lone {m : Mark} (hm : m = .dot ∨ m = .closeBrace) (after : Text) :
    (mark m).goesOn after = false := by
  rcases hm with rfl | rfl <;> cases after <;>
    simp [goesOn, Mark.characters, comes, opensComment, Mark.ofPair?]

end TokenKind

section Reads

variable {text as bs : Text} {c : Char} {l : Lexeme} {ls : List Lexeme}

/-- What is read as some words has tokens that are these words and the end of the input. -/
theorem reads_iff_tokenize : Reads text ls ↔ ∃ tokens, tokenize text = .ok tokens ∧
    tokens.map Token.lexeme = ls ++ [Lexeme.endOfInput] := by
  constructor
  · rintro ⟨last, h⟩
    exact h.exists_tokenize
  · rintro ⟨tokens, htokens, hlexemes⟩
    obtain ⟨ms, last, hms, h⟩ := (tokenize_eq_ok.mp htokens).exists_stretch
    obtain rfl : ms = ls := List.append_cancel_right (hms.symm.trans hlexemes)
    exact ⟨last, h⟩

theorem reads_nil : Reads [] ls ↔ ls = [] := by
  constructor
  · rintro ⟨last, h⟩
    exact h.nil_inv.1
  · rintro rfl
    exact ⟨none, .nil⟩

/-- A text begins with a blank, a comment or a word, and goes on with what is read alone. -/
theorem reads_append : Reads (c :: text) ls ↔ ∃ as bs, text = as ++ bs ∧
    (lexeme c text = .trivia as.length ∧ Reads bs ls ∨
      ∃ k ms, lexeme c text = .token k as.length ∧ ls = ⟨k, c :: as⟩ :: ms ∧ Reads bs ms) := by
  constructor
  · rintro ⟨last, h⟩
    cases h with
    | @trivia _ as bs _ _ is rest =>
        rw [List.append_nil] at is
        exact ⟨as, bs, rfl, .inl ⟨is, last, rest⟩⟩
    | @token _ as bs k ms _ is _ rest =>
        rw [List.append_nil] at is
        exact ⟨as, bs, rfl, .inr ⟨k, ms, is, rfl, last, rest⟩⟩
    | @final _ _ k is =>
        rw [List.append_nil] at is
        exact ⟨text, [], (List.append_nil _).symm, .inr ⟨k, [], is, rfl, none, .nil⟩⟩
  · rintro ⟨as, bs, rfl, ⟨is, last, rest⟩ | ⟨k, ms, is, rfl, last, rest⟩⟩
    · exact ⟨last, .trivia (by rwa [List.append_nil]) rest⟩
    · cases bs with
      | nil =>
          obtain ⟨rfl, -⟩ := rest.nil_inv
          rw [List.append_nil] at is ⊢
          exact ⟨some k, .final (by rwa [List.append_nil])⟩
      | cons b bs => exact ⟨last, .token (by rwa [List.append_nil]) (List.cons_ne_nil b bs) rest⟩

/-- A blank in front is read as nothing. -/
theorem reads_blank (hc : isBlank c = true) : Reads (c :: text) ls ↔ Reads text ls := by
  have is : lexeme c text = .trivia 0 := trivia_nil.mpr hc
  rw [reads_append, is]
  constructor
  · rintro ⟨as, bs, rfl, ⟨hlength, h⟩ | ⟨k, ms, hkind, -⟩⟩
    · obtain rfl : as = [] := List.eq_nil_of_length_eq_zero (Lexeme.trivia.inj hlength).symm
      exact h
    · cases hkind
  · intro h
    exact ⟨[], text, rfl, .inl ⟨rfl, h⟩⟩

/-- A word in front is read as that word if and only if what follows does not prolong it; a slash
must not begin a comment. -/
theorem reads_word (hl : l.WellSpelled)
    (hcomment : l.kind = .mark .slash → comes (fun d => d == '/' || d == '*') text = false) :
    Reads (l.text ++ text) (l :: ls) ↔ l.kind.goesOn text = false ∧ Reads text ls := by
  obtain ⟨kind, _⟩ := l
  obtain ⟨c, cs, rfl, is⟩ := hl
  rw [List.cons_append, reads_append]
  constructor
  · rintro ⟨as, bs, htext, ⟨htrivia, -⟩ | ⟨k, ms, htoken, hls, h⟩⟩
    · -- No blank or comment begins as a word does, but for the slash.
      exfalso
      obtain ⟨hblank, hplain, -⟩ := lexeme_eq_token.mp is
      rcases lexeme_eq_trivia.mp htrivia with ⟨hc, -⟩ | ⟨rfl, hmore⟩
      · rw [hc] at hblank
        cases hblank
      · have hopens : comes (fun d => d == '/' || d == '*') (cs ++ text) = true := by
          rcases hmore with ⟨line, hline, -⟩ | ⟨inside, m, hinside, -, -⟩
          · rw [hline]
            rfl
          · rw [hinside]
            rfl
        cases cs with
        | nil =>
            have hslash := hcomment (Scan.Lexeme.token.inj is).1.symm
            exact Bool.false_ne_true (hslash.symm.trans hopens)
        | cons d cs => exact Bool.false_ne_true (hplain.symm.trans hopens)
    · obtain ⟨hl, rfl⟩ := List.cons.inj hls
      obtain ⟨rfl, hsame⟩ := SharpMutants.Lexeme.mk.inj hl
      obtain ⟨-, rfl⟩ := List.cons.inj hsame
      obtain rfl := List.append_cancel_left htext
      exact ⟨(lexeme_append.mp htoken).2, h⟩
  · rintro ⟨hstop, h⟩
    exact ⟨cs, text, rfl, .inr ⟨kind, ls, lexeme_append.mpr ⟨is, hstop⟩, rfl, h⟩⟩

end Reads

/-- A text that may stand behind an expression: it is empty, or begins with an operator, a bracket
or a blank. -/
def Breaks (after : Text) : Prop := ∀ c ∈ after.head?, TokenKind.breaks c = true

/-- A text that breaks off does so with more behind it. -/
theorem Breaks.append {text : Text} (h : Breaks text) (hnonempty : text ≠ []) (rest : Text) :
    Breaks (text ++ rest) := by
  obtain ⟨c, cs, rfl⟩ := List.exists_cons_of_ne_nil hnonempty
  exact h

/-- Every mark but the point breaks off. -/
theorem breaks_mark {m : Mark} (hm : m ≠ .dot) (rest : Text) : Breaks (m.characters ++ rest) := by
  cases m <;> first | contradiction | (rintro _ ⟨⟩; decide)

/-- Before any text that breaks off, a text is read as some words just if a condition holds. -/
def Prints (ok : Prop) (text : Text) (ls : List Lexeme) : Prop :=
  ∀ after ms, Breaks after → (Reads (text ++ after) (ls ++ ms) ↔ ok ∧ Reads after ms)

/-- A separator: whatever is printed may follow it, with the words of the separator in front. -/
structure Separates (separator : Text) (ws : List Lexeme) : Prop where
  nonempty : separator ≠ []
  breaks : Breaks separator
  prints : ∀ {ok text ls}, Prints ok text ls → Prints ok (separator ++ text) (ws ++ ls)

namespace Prints

variable {p q : Prop} {text text' : Text} {c : Char} {m : Mark} {l : Lexeme} {ls ms : List Lexeme}

/-- Nothing is printed as no words. -/
theorem nil : Prints True [] [] := by
  intro after ms _
  rw [true_and]
  rfl

/-- A text prints as words under any condition that says the same. -/
theorem congr (h : Prints p text ls) (hpq : p ↔ q) : Prints q text ls := by
  intro after ms hafter
  rw [h after ms hafter, hpq]

/-- A blank may stand in front. -/
theorem blank (hc : isBlank c = true) (h : Prints p text ls) : Prints p (c :: text) ls := by
  intro after ms hafter
  rw [List.cons_append, reads_blank hc]
  exact h after ms hafter

/-- A word may stand in front if nothing that follows prolongs it. -/
theorem follows (hl : l.WellSpelled)
    (hcomment : ∀ after, l.kind = .mark .slash →
      comes (fun d => d == '/' || d == '*') (text ++ after) = false)
    (hstop : ∀ after, Breaks after → l.kind.goesOn (text ++ after) = false)
    (h : Prints p text ls) : Prints p (l.text ++ text) (l :: ls) := by
  intro after ms hafter
  rw [List.append_assoc, List.cons_append, reads_word hl (hcomment after), hstop after hafter,
    h after ms hafter]
  tauto

/-- A word with a blank behind it may stand in front. -/
theorem spaced (hl : l.WellSpelled) (h : Prints p text ls) :
    Prints p (l.text ++ ' ' :: text) (l :: ls) := by
  apply follows hl ?_ ?_ (h.blank rfl)
  · intro after _
    rfl
  · intro after _
    exact TokenKind.goesOn_inert (by decide)

/-- A mark that nothing prolongs may stand in front. -/
theorem closed (hm : ∀ after, (TokenKind.mark m).goesOn after = false) (h : Prints p text ls) :
    Prints p (m.characters ++ text) (.mark m :: ls) := by
  apply follows (l := Lexeme.mark m) (Lexeme.wellSpelled_mark m) ?_ ?_ h
  · intro after hslash
    obtain rfl : m = .slash := TokenKind.mark.inj hslash
    cases hm ['=']
  · intro after _
    exact hm _

/-- A word that an expression may end with. -/
theorem word (hl : l.WellSpelled) (hend : l.kind.endsExpression = true) :
    Prints True l.text [l] := by
  have hslash : l.kind ≠ .mark .slash := by
    intro hslash
    rw [hslash] at hend
    cases hend
  have h := follows hl (fun _ h => absurd h hslash) ?_ nil
  · rwa [List.append_nil] at h
  · intro after hafter
    cases after with
    | nil => exact TokenKind.goesOn_nil
    | cons c cs => exact TokenKind.goesOn_of_breaks hend (hafter c rfl)

/-- Texts may stand one after another if the second one breaks off the first. -/
theorem append (h : Prints p text ls) (h' : Prints q text' ms) (hnonempty : text' ≠ [])
    (hbreaks : Breaks text') : Prints (p ∧ q) (text ++ text') (ls ++ ms) := by
  intro after ns hafter
  rw [List.append_assoc, List.append_assoc, h _ _ (hbreaks.append hnonempty after),
    h' after ns hafter, and_assoc]

/-- Texts may stand in a row with separators between neighbours. -/
theorem joined {α : Type} {P : α → Prop} {f : α → Text} {g : α → List Lexeme}
    {separator : String} {between : Text} {ws : List Lexeme} (hseparator : Separates between ws)
    (htext : separator.toList = between) {xs : List α} (h : ∀ x ∈ xs, Prints (P x) (f x) (g x)) :
    Prints (∀ x ∈ xs, P x) (Render.joined separator (xs.map f)) (ws.intercalate (xs.map g)) := by
  subst htext
  induction xs with
  | nil => exact nil.congr (by simp)
  | cons x xs ih =>
      rw [List.forall_mem_cons] at h
      cases xs with
      | nil =>
          simp only [List.map_cons, List.map_nil, Render.joined, List.intercalate,
            List.intersperse_singleton, List.flatten_singleton]
          exact h.1.congr (by simp)
      | cons y ys =>
          have hrest := hseparator.prints (ih h.2)
          have hall := h.1.append hrest (by simp [hseparator.nonempty]) ?_
          · simp only [List.map_cons, Render.joined, List.intercalate,
              List.intersperse_cons_cons, List.flatten_cons, ← List.append_assoc] at hall ⊢
            exact hall.congr (by simp)
          · exact hseparator.breaks.append hseparator.nonempty _

end Prints

namespace Separates

/-- A blank separates and is no word. -/
theorem blank {c : Char} (hc : isBlank c = true) : Separates [c] [] := by
  refine ⟨List.cons_ne_nil c [], ?_, Prints.blank hc⟩
  rintro _ ⟨⟩
  simp only [isBlank, Bool.or_eq_true, beq_iff_eq] at hc
  rcases hc with (((rfl | rfl) | rfl) | rfl) | rfl <;> decide

/-- So does a mark with a blank behind it, if it is no point. -/
theorem mark {m : Mark} (hm : m ≠ .dot) : Separates (m.characters ++ [' ']) [.mark m] := by
  refine ⟨by simp, breaks_mark hm [' '], fun h => ?_⟩
  rw [List.append_assoc]
  exact h.spaced (Lexeme.wellSpelled_mark m)

/-- So does a mark between blanks. -/
theorem spaced (m : Mark) : Separates (' ' :: (m.characters ++ [' '])) [.mark m] := by
  refine ⟨List.cons_ne_nil _ _, (blank rfl).breaks, fun h => ?_⟩
  rw [List.cons_append, List.append_assoc]
  exact (h.spaced (Lexeme.wellSpelled_mark m)).blank rfl

end Separates

/-! ## Forms -/

/-- A keyword is spelled as its class asks. -/
theorem Lexeme.wellSpelled_keyword (k : Keyword) : (Lexeme.keyword k).WellSpelled := by
  cases k with
  | modifier m => cases m <;> exact ⟨_, _, rfl, rfl⟩
  | typeName t => cases t <;> exact ⟨_, _, rfl, rfl⟩
  | _ => exact ⟨_, _, rfl, rfl⟩

namespace Prints

variable {p q : Prop} {text text' : Text} {ls ms : List Lexeme}

/-- The same text, words and condition in another form. -/
theorem of_eq (h : Prints p text ls) (htext : text' = text) (hwords : ms = ls) (hok : q ↔ p) :
    Prints q text' ms := by
  subst htext hwords
  exact h.congr hok.symm

/-- Texts may stand one after another with a blank between them. -/
theorem gap (h : Prints p text ls) (h' : Prints q text' ms) :
    Prints (p ∧ q) (text ++ ([' '] ++ text')) (ls ++ ms) :=
  h.append (h'.blank rfl) (List.cons_ne_nil _ _) (Separates.blank (c := ' ') rfl).breaks

/-- A keyword with a blank prints in front. -/
theorem keyword (k : Keyword) (word : String) (hword : word.toList = k.spelling.toList ++ [' '])
    (h : Prints p text ls) : Prints p (word.toList ++ text) (.keyword k :: ls) := by
  rw [hword, List.append_assoc]
  exact h.spaced (Lexeme.wellSpelled_keyword k)

/-- Modifiers print in front. -/
theorem modifiers (h : Prints p text ls) (ks : List Modifier) :
    Prints p (Render.modifiers ks ++ text) (ks.map (fun k => .keyword (.modifier k)) ++ ls) := by
  induction ks with
  | nil => exact h
  | cons k ks ih =>
      have hfirst := ih.spaced (Lexeme.wellSpelled_keyword (.modifier k))
      simpa [Render.modifiers, Keyword.spelling, Lexeme.keyword] using hfirst

/-- Names with points between them. -/
theorem dots {ns : List Text} (h : ∀ l ∈ Lexeme.dots ns, l.WellSpelled) :
    Prints True (['.'].intercalate ns) (Lexeme.dots ns) := by
  induction ns with
  | nil => exact nil
  | cons n ns ih =>
      obtain ⟨hname, hmore⟩ := List.forall_mem_cons.mp h
      cases ns with
      | nil =>
          simp only [List.intercalate, List.intersperse_singleton, List.flatten_singleton]
          exact word hname rfl
      | cons m ns =>
          have htext : ['.'].intercalate (n :: m :: ns) =
              n ++ '.' :: ['.'].intercalate (m :: ns) := by
            simp [List.intercalate]
          obtain ⟨-, hmore⟩ := List.forall_mem_cons.mp hmore
          have hrest := (ih hmore).closed (TokenKind.goesOn_lone (.inl rfl))
          rw [htext]
          apply follows hname nofun ?_ hrest
          intro after _
          rfl

/-- A dotted name prints as its segments and dots. -/
theorem dotted {path : String} (h : ∀ l ∈ Lexeme.dotted path, l.WellSpelled) :
    Prints True path.toList (Lexeme.dotted path) := by
  have hprints := dots h
  rwa [List.intercalate_splitOn] at hprints

/-- A name prints as itself. -/
theorem name {n : String} (h : (Lexeme.name n.toList).WellSpelled) :
    Prints True n.toList [.name n.toList] := word h rfl

/-- A semicolon may stand behind. -/
theorem ended (h : Prints p text ls) : Prints p (text ++ [';']) (ls ++ [.mark .semicolon]) := by
  have hend := closed (TokenKind.goesOn_closed (m := .semicolon) (by decide)) nil
  have hall := h.append hend (List.cons_ne_nil _ _) (breaks_mark (m := .semicolon) nofun _)
  exact hall.congr (by rw [and_true])

/-- Text in parentheses prints as its words in parentheses. -/
theorem parenthesized (h : Prints p text ls) :
    Prints p (['('] ++ (text ++ [')'])) (.mark .openParen :: (ls ++ [.mark .closeParen])) := by
  have hend := closed (TokenKind.goesOn_closed (m := .closeParen) (by decide)) nil
  have hall := h.append hend (List.cons_ne_nil _ _) (breaks_mark (m := .closeParen) nofun _)
  apply closed (TokenKind.goesOn_closed (m := .openParen) (by decide))
  exact hall.congr (by rw [and_true])

/-- Text in braces prints as its words in braces. -/
theorem braced (h : Prints p text ls) :
    Prints p (Render.braced text) (.mark .openBrace :: (ls ++ [.mark .closeBrace])) := by
  have hend := closed (TokenKind.goesOn_lone (.inr rfl)) nil
  have hall := (h.gap hend).spaced (Lexeme.wellSpelled_mark .openBrace)
  exact hall.of_eq (List.append_assoc ..) rfl (by rw [and_true])

/-- A list in parentheses, and what follows after a blank. -/
theorem header (h : Prints p text ls) (h' : Prints q text' ms) :
    Prints (p ∧ q) (['('] ++ (text ++ (") ".toList ++ text')))
      (.mark .openParen :: (ls ++ .mark .closeParen :: ms)) := by
  have hend := h'.spaced (Lexeme.wellSpelled_mark .closeParen)
  apply closed (TokenKind.goesOn_closed (m := .openParen) (by decide))
  exact h.append hend (List.cons_ne_nil _ _) (breaks_mark (m := .closeParen) nofun _)

/-- A keyword with something in parentheses prints in front. -/
theorem headed (k : Keyword) (word : String) (hword : word.toList = k.spelling.toList ++ [' ', '('])
    (h : Prints p text ls) (h' : Prints q text' ms) :
    Prints (p ∧ q) (word.toList ++ (text ++ (") ".toList ++ text')))
      (.keyword k :: .mark .openParen :: (ls ++ .mark .closeParen :: ms)) := by
  rw [hword, List.append_assoc]
  exact (h.header h').spaced (Lexeme.wellSpelled_keyword k)

end Prints

end SharpMutants
