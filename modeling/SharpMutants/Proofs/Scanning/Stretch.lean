import SharpMutants.Proofs.Scanning

/-!
# Stretches of a text

`Stretch after text ls last` says that a text, when other text follows it, is cut into
whole pieces: blanks and comments, and tokens that are the words `ls`.  The last piece is
a token of the kind `last`, or none.

Stretches stand one after another (`Stretch.append`), and a text that is a stretch up to
its end scans to its words (`Stretch.exists_tokenize`).  Other text may follow a stretch
if it does not prolong the last token (`Stretch.follow`), so an edit of a text shows in
its tokens only where the text is changed.
-/

namespace SharpMutants

namespace Scan

variable {c : Char} {as bs rest : Text}

theorem commentLength?_pos {n : Nat} (h : commentLength? rest = some n) : 0 < n := by
  unfold commentLength? at h
  split at h <;> simp at h <;> omega

/-- The end of a comment does not depend on what follows it. -/
theorem commentLength?_append :
    commentLength? (as ++ bs) = some as.length ↔ commentLength? as = some as.length := by
  induction as using commentLength?.induct with
  | case1 => simp [commentLength?]
  | case2 c cs notClosed ih =>
      by_cases hclosed : c = '*' ∧ cs = []
      · obtain ⟨rfl, rfl⟩ := hclosed
        constructor
        · intro h
          unfold commentLength? at h
          split at h
          · simp at h
          · obtain ⟨n, hn, hlength⟩ := Option.map_eq_some_iff.mp h
            have := commentLength?_pos hn
            simp at hlength
            omega
          · cases h
        · intro h
          simp [commentLength?] at h
      · have notClosed' : ∀ tail, c = '*' → cs ++ bs ≠ '/' :: tail := by
          rintro tail rfl h
          cases cs with
          | nil => exact hclosed ⟨rfl, rfl⟩
          | cons d cs =>
              obtain ⟨rfl, -⟩ := List.cons.inj h
              exact notClosed cs rfl rfl
        rw [List.cons_append, commentLength?.eq_2 _ _ fun tail hc h => notClosed' tail hc h,
          commentLength?.eq_2 _ _ notClosed, List.length_cons]
        simp [ih]
  | case3 =>
      refine ⟨fun h => absurd (commentLength?_pos h) (by simp), fun h => by cases h⟩

/-- A comment that ends with its line begins with a character when some text follows it. -/
def opensLine (c : Char) (after : Text) : Bool := c == '/' && comes (· == '/') after

theorem trivia_nil {after : Text} : lexeme c after = .trivia 0 ↔ isBlank c = true := by
  rw [lexeme_eq_trivia]
  simp

/-- A comment is passed over to the end of its line or up to its closing mark. -/
theorem trivia_cons {d : Char} {n : Nat} : lexeme c (d :: rest) = .trivia (n + 1) ↔
    c = '/' ∧ (d = '/' ∧ (rest.takeWhile (· != '\n')).length = n ∨
      d = '*' ∧ commentLength? rest = some n) := by
  rw [lexeme_eq_trivia]
  constructor
  · rintro (⟨-, h⟩ | ⟨hc, ⟨line, h, hn⟩ | ⟨inside, m, h, hm, hn⟩⟩)
    · cases h
    · obtain ⟨rfl, rfl⟩ := List.cons.inj h
      exact ⟨hc, .inl ⟨rfl, Nat.succ.inj hn⟩⟩
    · obtain ⟨rfl, rfl⟩ := List.cons.inj h
      obtain rfl := Nat.succ.inj hn
      exact ⟨hc, .inr ⟨rfl, hm⟩⟩
  · rintro ⟨hc, ⟨rfl, rfl⟩ | ⟨rfl, hn⟩⟩
    · exact .inr ⟨hc, .inl ⟨rest, rfl, rfl⟩⟩
    · exact .inr ⟨hc, .inr ⟨rest, n, rfl, hn, rfl⟩⟩

/-- A blank or a comment in its place. -/
theorem trivia_append : lexeme c (as ++ bs) = .trivia as.length ↔
    lexeme c as = .trivia as.length ∧ (opensLine c as = true → comes (· != '\n') bs = false) := by
  cases as with
  | nil =>
      rw [List.nil_append, List.length_nil, trivia_nil, trivia_nil]
      simp [opensLine, comes]
  | cons d as =>
      have hline := takeWhile_append_length as bs (p := (· != '\n'))
      have halone := takeWhile_append_length as [] (p := (· != '\n'))
      rw [List.append_nil] at halone
      rw [List.cons_append, List.length_cons, trivia_cons, trivia_cons, commentLength?_append, hline,
        halone]
      simp only [opensLine, comes, List.head?_cons, Option.any_some]
      grind

end Scan

open Scan

namespace TokenKind

variable {k : TokenKind} {c : Char} {xs after after' : Text}

/-- Two characters decide whether a token goes on, and the second one only if it is a digit. -/
theorem goesOn_append (h : k.goesOn (c :: (xs ++ after)) = false)
    (hdigit : comes isDigit after' = true → comes isDigit after = true) :
    k.goesOn (c :: (xs ++ after')) = false := by
  cases k with
  | int =>
      cases xs with
      | nil =>
          simp only [goesOn, fractionComes, List.nil_append, List.tail_cons] at h ⊢
          grind [comes]
      | cons x xs => exact h
  | mark m => exact h
  | _ => exact h

/-- Only a point makes a second character matter. -/
theorem goesOn_cons (hc : c ≠ '.') : k.goesOn (c :: xs) = k.goesOn [c] := by
  cases k with
  | int => simp [goesOn, fractionComes, comes, hc]
  | mark m => rfl
  | _ => rfl

end TokenKind

/-- A text is cut into whole pieces when other text follows it. -/
inductive Stretch (after : Text) : Text → List Lexeme → Option TokenKind → Prop
  | nil : Stretch after [] [] none
  | trivia {c : Char} {as bs : Text} {ls : List Lexeme} {last : Option TokenKind}
      (is : Scan.lexeme c (as ++ (bs ++ after)) = .trivia as.length)
      (rest : Stretch after bs ls last) : Stretch after (c :: (as ++ bs)) ls last
  | token {c : Char} {as bs : Text} {k : TokenKind} {ls : List Lexeme} {last : Option TokenKind}
      (is : Scan.lexeme c (as ++ (bs ++ after)) = .token k as.length) (more : bs ≠ [])
      (rest : Stretch after bs ls last) : Stretch after (c :: (as ++ bs)) (⟨k, c :: as⟩ :: ls) last
  | final {c : Char} {as : Text} {k : TokenKind}
      (is : Scan.lexeme c (as ++ after) = .token k as.length) :
      Stretch after (c :: as) [⟨k, c :: as⟩] (some k)

namespace Stretch

variable {text text' after after' : Text} {ls ms : List Lexeme} {last last' : Option TokenKind}

/-- No text is cut into no words. -/
theorem nil_inv (h : Stretch after [] ls last) : ls = [] ∧ last = none := by
  cases h
  exact ⟨rfl, rfl⟩

/-- Stretches stand one after another. -/
theorem append (h : Stretch (text' ++ after) text ls last) (h' : Stretch after text' ms last') :
    Stretch after (text ++ text') (ls ++ ms) (if text' = [] then last else last') := by
  by_cases hnil : text' = []
  · subst hnil
    obtain ⟨rfl, -⟩ := h'.nil_inv
    rw [if_pos rfl, List.append_nil, List.append_nil]
    exact h
  · rw [if_neg hnil]
    induction h with
    | nil => exact h'
    | trivia is _ ih =>
        rw [List.cons_append, List.append_assoc]
        exact .trivia (by rwa [List.append_assoc]) ih
    | token is more _ ih =>
        rw [List.cons_append, List.append_assoc]
        exact .token (by rwa [List.append_assoc]) (List.append_ne_nil_of_left_ne_nil more _) ih
    | final is => exact .token is hnil h'

/-- The last token of a stretch is not prolonged. -/
theorem goesOn_eq_false (h : Stretch after text ls last) : ∀ k ∈ last, k.goesOn after = false := by
  induction h with
  | nil => nofun
  | trivia _ _ ih => exact ih
  | token _ _ _ ih => exact ih
  | final is =>
      rintro _ ⟨⟩
      exact (lexeme_append.mp is).2

/-- **Other text may follow a stretch** if it does not prolong the last token.  A digit must
have been there before, for a number with a point behind it, and something that is no line feed, for
a comment that ends with its line. -/
theorem follow (h : Stretch after text ls last) (hlast : ∀ k ∈ last, k.goesOn after' = false)
    (hdigit : comes isDigit after' = true → comes isDigit after = true)
    (hline : last = none → comes (· != '\n') after = true) : Stretch after' text ls last := by
  induction h with
  | nil => exact .nil
  | @trivia c as bs ls last is rest ih =>
      refine .trivia ?_ (ih hlast hline)
      obtain ⟨here, ends⟩ := trivia_append.mp is
      refine trivia_append.mpr ⟨here, fun hopens => ?_⟩
      cases bs with
      | nil =>
          have hnext := hline rest.nil_inv.2
          rw [List.nil_append] at ends
          rw [ends hopens] at hnext
          cases hnext
      | cons b bs => exact ends hopens
  | @token c as bs k ls last is more _ ih =>
      refine .token ?_ more (ih hlast hline)
      obtain ⟨here, stop⟩ := lexeme_append.mp is
      obtain ⟨b, bs, rfl⟩ := List.exists_cons_of_ne_nil more
      exact lexeme_append.mpr ⟨here, TokenKind.goesOn_append stop hdigit⟩
  | final is =>
      exact .final (lexeme_append.mpr ⟨(lexeme_append.mp is).1, hlast _ rfl⟩)

/-- A well spelled word is a stretch before what does not prolong it. -/
theorem word {l : Lexeme} (h : l.WellSpelled) (hstop : l.kind.goesOn after = false) :
    Stretch after l.text [l] (some l.kind) := by
  obtain ⟨kind, text⟩ := l
  obtain ⟨c, cs, rfl, is⟩ := h
  exact .final (lexeme_append.mpr ⟨is, hstop⟩)

/-- **A stretch up to the end of a text** scans to its words. -/
theorem exists_scans (h : Stretch [] text ls last) (o : Nat) :
    ∃ ts, Scans o text ts ∧ ts.map Token.lexeme = ls ++ [Lexeme.endOfInput] := by
  induction h generalizing o with
  | nil => exact ⟨_, .nil o, rfl⟩
  | trivia is _ ih =>
      obtain ⟨ts, hts, hlexemes⟩ := ih _
      rw [List.append_nil] at is
      exact ⟨ts, .trivia is hts, hlexemes⟩
  | token is _ _ ih =>
      obtain ⟨ts, hts, hlexemes⟩ := ih _
      rw [List.append_nil] at is
      exact ⟨_, .token is hts, congrArg _ hlexemes⟩
  | @final c as k is =>
      have hscans : Scans o (c :: (as ++ [])) _ := .token is (.nil _)
      rw [List.append_nil] at hscans
      exact ⟨_, hscans, rfl⟩

/-- A text that is cut into words is tokenized as them, with the end of the input behind. -/
theorem exists_tokenize (h : Stretch [] text ls last) :
    ∃ tokens, tokenize text = .ok tokens ∧ tokens.map Token.lexeme = ls ++ [Lexeme.endOfInput] := by
  obtain ⟨tokens, hscans, hlexemes⟩ := h.exists_scans 0
  exact ⟨tokens, tokenize_eq_ok.mpr hscans, hlexemes⟩

end Stretch

namespace Scan.Scans

variable {o : Nat} {text : Text} {ts us : List Token} {u : Token}

/-- What is scanned is a stretch up to the end of the text. -/
theorem exists_stretch (h : Scans o text us) : ∃ ls last,
    us.map Token.lexeme = ls ++ [Lexeme.endOfInput] ∧ Stretch [] text ls last := by
  induction h with
  | nil o => exact ⟨[], none, rfl, .nil⟩
  | trivia is _ ih =>
      obtain ⟨ls, last, hls, ih⟩ := ih
      exact ⟨ls, last, hls, .trivia (by rwa [List.append_nil]) ih⟩
  | @token o c as bs k us is _ ih =>
      obtain ⟨ls, last, hls, ih⟩ := ih
      cases bs with
      | nil =>
          obtain ⟨rfl, -⟩ := ih.nil_inv
          rw [List.append_nil] at is ⊢
          exact ⟨[⟨k, c :: as⟩], some k, congrArg _ hls, .final (by rwa [List.append_nil])⟩
      | cons b bs =>
          exact ⟨⟨k, c :: as⟩ :: ls, last, congrArg _ hls,
            .token (by rwa [List.append_nil]) (List.cons_ne_nil b bs) ih⟩

/-- **The text before a token** is a stretch, and so is what follows from there on. -/
theorem exists_before (h : Scans o text (ts ++ u :: us)) : ∃ before rest last,
    text = before ++ rest ∧ o + Text.width before = u.span.start ∧
      Stretch rest before (ts.map Token.lexeme) last ∧
      (∀ k ∈ last, ∃ t ∈ ts.getLast?, t.kind = k ∧ t.span.stop = u.span.start) ∧
      Scans u.span.start rest (u :: us) := by
  generalize hall : ts ++ u :: us = all at h
  induction h generalizing ts with
  | nil o =>
      obtain ⟨rfl, h⟩ | ⟨ts', rfl, h⟩ := List.append_eq_cons_iff.mp hall
      · obtain ⟨rfl, rfl⟩ := List.cons.inj h
        exact ⟨[], [], none, rfl, rfl, .nil, nofun, .nil o⟩
      · cases ts' <;> cases h
  | @trivia o c as bs all is rest ih =>
      obtain ⟨before, rest', last, rfl, hwidth, hbefore, hlast, hrest⟩ := ih hall
      refine ⟨c :: (as ++ before), rest', last, by simp, ?_, .trivia is hbefore, hlast, hrest⟩
      rw [← List.cons_append, Text.width_append, ← Nat.add_assoc, hwidth]
  | @token o c as bs k all is rest ih =>
      obtain ⟨rfl, h⟩ | ⟨ts', rfl, h⟩ := List.append_eq_cons_iff.mp hall
      · obtain ⟨rfl, rfl⟩ := List.cons.inj h
        exact ⟨[], _, none, rfl, rfl, .nil, nofun, .token is rest⟩
      · obtain ⟨before, rest', last, rfl, hwidth, hbefore, hlast, hrest⟩ := ih h.symm
        have hstart : o + Text.width (c :: (as ++ before)) = u.span.start := by
          rw [← List.cons_append, Text.width_append, ← Nat.add_assoc, hwidth]
        cases before with
        | nil =>
            obtain ⟨hts', -⟩ := hbefore.nil_inv
            obtain rfl := List.map_eq_nil_iff.mp hts'
            rw [List.nil_append] at is
            refine ⟨c :: as, rest', some k, rfl, by simpa using hstart, .final is, ?_, hrest⟩
            rintro _ ⟨⟩
            exact ⟨_, rfl, rfl, hwidth⟩
        | cons b before =>
            refine ⟨c :: (as ++ b :: before), rest', last, by simp, hstart,
              .token is (List.cons_ne_nil b before) hbefore, fun k hk => ?_, hrest⟩
            obtain ⟨t, ht, hkind, hstop⟩ := hlast k hk
            refine ⟨t, ?_, hkind, hstop⟩
            rw [List.getLast?_cons, Option.mem_def.mp ht]
            rfl

/-- A token begins what is scanned from its start. -/
theorem exists_text (h : Scans u.span.start text (u :: us)) (hreal : u.kind ≠ .endOfInput) :
    ∃ rest, text = u.text ++ rest ∧ u.span.start + Text.width u.text = u.span.stop ∧
      Stretch rest u.text [u.lexeme] (some u.kind) ∧ Scans u.span.stop rest us := by
  generalize ho : u.span.start = o at h
  cases h with
  | nil => exact absurd rfl hreal
  | @trivia o c as bs ts is rest =>
      have hbound := (rest.bounds u List.mem_cons_self).1
      have hpos := Char.utf8Size_pos c
      rw [Text.width] at hbound
      omega
  | @token o c as bs k ts is rest => exact ⟨bs, rfl, rfl, .final is, rest⟩

/-- The text up to the end of a token is a stretch that ends in it. -/
theorem exists_through (h : Scans o text (ts ++ u :: us)) (hreal : u.kind ≠ .endOfInput) :
    ∃ through rest, text = through ++ rest ∧ o + Text.width through = u.span.stop ∧
      Stretch rest through ((ts ++ [u]).map Token.lexeme) (some u.kind) ∧
      Scans u.span.stop rest us := by
  obtain ⟨before, _, last, rfl, hwidth, hbefore, -, hscans⟩ := h.exists_before
  obtain ⟨rest, rfl, hstop, htoken, hscans⟩ := hscans.exists_text hreal
  have hnonempty : u.text ≠ [] := by
    intro hnil
    rw [hnil] at htoken
    cases htoken.nil_inv.1
  have hthrough := hbefore.append htoken
  rw [if_neg hnonempty] at hthrough
  refine ⟨before ++ u.text, rest, (List.append_assoc ..).symm, ?_, ?_, hscans⟩
  · rw [Text.width_append, ← Nat.add_assoc, hwidth, hstop]
  · rwa [List.map_append]

/-- **The text of some tokens** begins with that of the first of them and ends in the last of
them, and what stands before and after it are stretches too. -/
theorem exists_cut {vs : List Token} (h : Scans o text (ts ++ (us ++ vs))) (hus : us ≠ [])
    (hreal : ∀ u ∈ us, u.kind ≠ .endOfInput) :
    ∃ before mid rest last, text = before ++ (mid ++ rest) ∧
      o + Text.width before = (hull us).start ∧
      (hull us).start + Text.width mid = (hull us).stop ∧
      Stretch (mid ++ rest) before (ts.map Token.lexeme) last ∧
      (∀ k ∈ last, ∃ t ∈ ts.getLast?, t.kind = k ∧ t.span.stop = (hull us).start) ∧
      (∀ u ∈ us.head?, ∃ more, mid = u.text ++ more) ∧
      (∃ u ∈ us.getLast?, Stretch rest mid (us.map Token.lexeme) (some u.kind)) ∧
      Scans (hull us).stop rest vs := by
  obtain ⟨u, us, rfl⟩ := List.exists_cons_of_ne_nil hus
  obtain ⟨hfirst, hreal⟩ := List.forall_mem_cons.mp hreal
  rw [List.cons_append] at h
  obtain ⟨before, _, last, rfl, hwidth, hbefore, hlast, hscans⟩ := h.exists_before
  obtain ⟨rest, rfl, hstop, htoken, hscans⟩ := hscans.exists_text hfirst
  have hhead : ∀ {more}, ∀ v ∈ (u :: us).head?, ∃ more', u.text ++ more = v.text ++ more' := by
    rintro more _ ⟨⟩
    exact ⟨more, rfl⟩
  rcases List.eq_nil_or_concat us with rfl | ⟨us, w, rfl⟩
  · refine ⟨before, u.text, rest, last, rfl, hwidth, hstop, hbefore, hlast, ?_, ⟨u, rfl, htoken⟩,
      hscans⟩
    simp
  · rw [List.concat_eq_append, List.append_assoc] at hscans
    obtain ⟨through, rest, rfl, hthrough, hmore, hscans⟩ :=
      hscans.exists_through (hreal w (by simp))
    have hend : (hull (u :: us.concat w)).stop = w.span.stop := by
      simp [hull, stopAfter_append]
    have hnonempty : through ≠ [] := by
      intro hnil
      rw [hnil] at hmore
      have := hmore.nil_inv.2
      cases this
    have hmid := htoken.append hmore
    rw [if_neg hnonempty] at hmid
    refine ⟨before, u.text ++ through, rest, last, by simp, hwidth, ?_, by simpa using hbefore,
      hlast, hhead, ⟨w, ?_, ?_⟩, hend ▸ hscans⟩
    · rw [hend, Text.width_append, ← hthrough, ← hstop, Nat.add_assoc]
      rfl
    · rw [List.concat_eq_append, ← List.cons_append]
      exact List.getLast?_concat
    · simpa using hmid

end Scan.Scans

end SharpMutants
