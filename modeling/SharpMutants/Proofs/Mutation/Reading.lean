import SharpMutants.Proofs.Context
import SharpMutants.Proofs.Mutation.Grammatical
import SharpMutants.Proofs.Rendering.Edits

/-!
# Rewritten nodes are read as such

`ReadsWith` says that a source with another text in the place of a node is read as the
tokens before the node, other words, and the tokens after it.  A node with another
token in the place of its own is read so if the new token is prolonged by nothing behind
it and prolongs nothing before it (`CutAt.readsWith`): steps, names and semicolons each
have a reason for that.  In a binary expression the new operator stands between
gaps and operands, which are in parentheses or not (`Stretch.operation`), and only a
lone plus, minus or slash may go on with what follows it (`readsWith_binary`).
-/

namespace SharpMutants

open Scan Text

/-! ## Other words in the place of a node -/

/-- With another text in the place of a node, a text is read as the tokens before the node, other
words, and the tokens after it. -/
def ReadsWith (s : Text) (t : Tree) (ts vs : List Token) (text : Text) (ls : List Lexeme) : Prop :=
  ∃ tokens,
    tokenize (slice s 0 t.span.start ++ text ++ slice s t.span.stop (width s)) = .ok tokens ∧
      tokens.map Token.lexeme = ts.map Token.lexeme ++ (ls ++ vs.map Token.lexeme)

variable {s : Text} {t : Tree} {ts us vs ws : List Token} {u : Token} {marker : Option String}

/-- A stretch up to the end of a node, with the rest of the source. -/
theorem Stretch.readsWith {A text B : Text} {ls : List Lexeme} {last : Option TokenKind}
    (hstretch : Stretch B A (ts.map Token.lexeme ++ ls) last) {o : Nat} (hrest : Scans o B vs)
    (hbefore : slice s 0 t.span.start ++ text = A) (hafter : slice s t.span.stop (width s) = B) :
    ReadsWith s t ts vs text ls := by
  obtain ⟨ms, last', hms, hend⟩ := hrest.exists_stretch
  rw [← List.append_nil B] at hstretch
  obtain ⟨tokens, htokens, hlexemes⟩ := (hstretch.append hend).exists_tokenize
  refine ⟨tokens, ?_, ?_⟩
  · rw [hbefore, hafter]
    exact htokens
  · rw [hlexemes, hms]
    simp

/-- A text cut around a token among some tokens. -/
structure CutAt (s : Text) (ts us : List Token) (u : Token) (vs ws : List Token) (A Y B : Text)
    (last : Option TokenKind) : Prop where
  text : s = A ++ (u.text ++ (Y ++ B))
  start : width A = u.span.start
  stop : u.span.start + width u.text = u.span.stop
  finish : u.span.stop + width Y = (hull (us ++ u :: vs)).stop
  before : Stretch (u.text ++ (Y ++ B)) A ((ts ++ us).map Token.lexeme) last
  touches : ∀ k ∈ last, ∃ v ∈ (ts ++ us).getLast?, v.kind = k ∧ v.span.stop = u.span.start
  ends : u.kind.goesOn (Y ++ B) = false
  after : ∀ marker, ∃ last, Stretch (Render.comment marker ++ B) Y (vs.map Token.lexeme) last
  none : vs = [] → Y = []
  rest : Scans (hull (us ++ u :: vs)).stop B ws

/-- A text can be cut around a token among others. -/
theorem exists_cutAt (h : Scans 0 s (ts ++ ((us ++ u :: vs) ++ ws)))
    (hreal : ∀ v ∈ us ++ u :: vs, v.kind ≠ .endOfInput) :
    ∃ A Y B last, CutAt s ts us u vs ws A Y B last := by
  have hscans : Scans 0 s ((ts ++ us) ++ u :: (vs ++ ws)) := by simpa using h
  obtain ⟨A, _, last, rfl, hwidth, hbefore, hlast, hscans⟩ := hscans.exists_before
  obtain ⟨rest, rfl, hstop, htoken, hscans⟩ := hscans.exists_text (hreal u (by simp))
  have hends := htoken.goesOn_eq_false u.kind rfl
  rw [Nat.zero_add] at hwidth
  have hhull : ∀ {ws}, (hull (us ++ u :: ws)).stop = stopAfter u.span.stop ws := by
    intro ws
    cases us <;> simp [hull, stopAfter_append]
  rcases List.eq_nil_or_concat vs with rfl | ⟨vs, w, rfl⟩
  · exact ⟨A, [], rest, last, rfl, hwidth, hstop, by rw [hhull]; rfl, hbefore, hlast, hends,
      fun _ => ⟨_, .nil⟩, fun _ => rfl, hhull ▸ hscans⟩
  · rw [List.concat_eq_append, List.append_assoc] at hscans
    obtain ⟨Y, B, rfl, hY, hmore, hscans⟩ := hscans.exists_through (hreal w (by simp))
    have hstops : (hull (us ++ u :: vs.concat w)).stop = w.span.stop := by
      rw [hhull, List.concat_eq_append, stopAfter_append]
      rfl
    rw [← List.concat_eq_append] at hmore
    exact ⟨A, Y, B, last, rfl, hwidth, hstop, by rw [hY, hstops], hbefore, hlast, hends,
      fun marker => ⟨_, hmore.resume marker⟩, by simp, hstops ▸ hscans⟩

namespace CutAt

variable {A Y B : Text} {last : Option TokenKind}

/-- Another text in the place of the token, and a comment after the node. -/
theorem swap_eq (h : CutAt s ts us u vs ws A Y B last) (hspan : t.span = hull (us ++ u :: vs))
    (hplace : s.InOrder t.span.start t.span.stop [u.span]) (new comment : Text) :
    slice s 0 t.span.start ++ (fill s t.span.start t.span.stop [(u.span, new)] ++ comment) =
        A ++ (new ++ (Y ++ comment)) ∧
      slice s t.span.stop (width s) = B := by
  have hstop : u.span.stop + width Y = t.span.stop := by rw [h.finish, hspan]
  have hcut : width (A ++ u.text) = u.span.stop := by rw [width_append, h.start, h.stop]
  have hA : slice s 0 u.span.start = A := by
    rw [h.text, ← h.start, slice_left]
  have hY : slice s u.span.stop t.span.stop = Y := by
    rw [h.text, ← List.append_assoc]
    exact slice_eq (A ++ u.text) Y B hcut (by rw [hcut, hstop])
  have hB : slice s t.span.stop (width s) = B := by
    have htext : s = (A ++ u.text) ++ Y ++ B := by simpa using h.text
    rw [htext, ← hstop, ← hcut, ← width_append, slice_right]
  refine ⟨?_, hB⟩
  have hbefore : s.Range 0 t.span.start :=
    ⟨boundary_zero s, Nat.zero_le _, hplace.range.start⟩
  rw [fill, fill, hY, List.append_assoc, List.append_assoc, ← List.append_assoc,
    slice_append hbefore hplace.1, hA]

/-- **Another token in the place of the token** is read as such if it does not run together with
what stands before it and after it. -/
theorem readsWith (h : CutAt s ts us u vs ws A Y B last) (hspan : t.span = hull (us ++ u :: vs))
    (hplace : s.InOrder t.span.start t.span.stop [u.span]) {l : Lexeme} (hl : l.WellSpelled)
    (hbefore : ∀ rest, Stretch (l.text ++ rest) A ((ts ++ us).map Token.lexeme) last)
    (hafter : l.kind.goesOn (Y ++ (Render.comment marker ++ B)) = false)
    (hmarker : ClosedComment marker) :
    ReadsWith s t ts ws
      (fill s t.span.start t.span.stop [(u.span, l.text)] ++ Render.comment marker)
      (us.map Token.lexeme ++ l :: vs.map Token.lexeme) := by
  obtain ⟨htext, hrest⟩ := h.swap_eq hspan hplace l.text (Render.comment marker)
  obtain ⟨_, hY⟩ := h.after marker
  have hend := hY.append (Stretch.comment hmarker B)
  have hhere : Stretch ((Y ++ Render.comment marker) ++ B) l.text [l] (some l.kind) :=
    .word hl (by rwa [List.append_assoc])
  have hall := (List.append_assoc .. ▸ hbefore _).append (hhere.append hend)
  have hwords : (ts ++ us).map Token.lexeme ++ ([l] ++ (vs.map Token.lexeme ++ [])) =
      ts.map Token.lexeme ++ (us.map Token.lexeme ++ l :: vs.map Token.lexeme) := by
    simp
  rw [hwords] at hall
  exact hall.readsWith h.rest htext hrest

end CutAt

/-! ## Rewritten nodes -/

section Rewritten

variable {source : Source} {sym : Symbol}

/-- **A node with another kind** is read with the token of that in the place of its own, if the new
token runs together neither with what stands before it nor with what follows it. -/
theorem readsWith_retoken (us vs : List Token)
    (hscans : Scans 0 source.text (ts ++ ((us ++ u :: vs) ++ ws)))
    (hspelled : ∀ v ∈ us ++ u :: vs, v.lexeme.WellSpelled) (hlaid : Laid source.text t)
    (hspan : t.span = hull (us ++ u :: vs)) (htoken : t.root.token = some u.span) {kind : Kind}
    {old new : String} (hold : t.kind.tokenText? = some old) (hnew : kind.tokenText? = some new)
    {k : TokenKind} (hl : (⟨k, new.toList⟩ : Lexeme).WellSpelled)
    (hyield : ∀ d : Node, d.kind = kind → (Tree.node d t.children).yield =
      us.map Token.lexeme ++ ⟨k, new.toList⟩ :: vs.map Token.lexeme)
    (hbefore : ∀ A rest rest' last, Stretch (u.text ++ rest) A ((ts ++ us).map Token.lexeme) last →
      (∀ k ∈ last, ∃ v ∈ (ts ++ us).getLast?, v.kind = k ∧ v.span.stop = u.span.start) →
        Stretch (new.toList ++ rest') A ((ts ++ us).map Token.lexeme) last)
    (hafter : ∀ Y B, u.kind.goesOn (Y ++ B) = false → (vs = [] → Y = []) →
      k.goesOn (Y ++ (Render.comment marker ++ B)) = false)
    (hmarker : ClosedComment marker) :
    ReadsWith source.text t ts ws
      ((((Graft.retoken t kind).withTrailing marker).toTree t.span).render source)
      (((Graft.retoken t kind).withTrailing marker).toTree t.span).yield := by
  obtain ⟨token, htoken', -, hplace, hrender⟩ := hlaid.render_retoken hold hnew marker
  obtain rfl := Option.some.inj (htoken.symm.trans htoken')
  obtain ⟨A, Y, B, last, hcut⟩ := exists_cutAt hscans fun v hv => (hspelled v hv).ne_end
  rw [Rewrite.toTree_retoken, hrender, hyield _ rfl]
  exact hcut.readsWith (l := ⟨k, new.toList⟩) hspan hplace hl
    (fun rest => hbefore A _ rest last hcut.before hcut.touches)
    (hafter Y B hcut.ends hcut.none) hmarker

/-- A step is a sign twice. -/
theorem UnaryOp.exists_step {op : UnaryOp} (h : op.isStep = true) :
    op.mark ∈ [Mark.plusPlus, .minusMinus] ∧
      ∃ c, op.mark.characters = [c, c] ∧ TokenKind.breaks c = true := by
  cases op <;> cases h <;> exact ⟨by decide, _, rfl, rfl⟩

/-- The lexeme of a unary operator is its symbol. -/
theorem UnaryOp.lexeme_eq (op : UnaryOp) :
    Lexeme.mark op.mark = ⟨.mark op.mark, op.symbol.toList⟩ := by
  rw [Lexeme.mark, UnaryOp.symbol_toList]

/-- A step is read after any token but its own sign. -/
theorem Stretch.follow_step {after A rest : Text} {last : Option TokenKind} {ls : List Lexeme}
    {op : UnaryOp} (h : Stretch after A ls last) (hstep : op.isStep = true)
    (hline : comes (· != '\n') after = true)
    (hsign : ∀ m, last = some (.mark m) → op.symbol.toList ≠ m.characters ++ m.characters) :
    Stretch (op.symbol.toList ++ rest) A ls last := by
  obtain ⟨-, c, hcharacters, hc⟩ := UnaryOp.exists_step hstep
  refine h.follow (fun k hk => ?_) (fun hdigit => ?_) fun _ => hline
  · rw [← Bool.not_eq_true]
    intro hgoesOn
    obtain ⟨m, rfl, hsame⟩ := TokenKind.exists_sign hstep hgoesOn
    exact hsign m hk hsame
  · rw [UnaryOp.symbol_toList, hcharacters] at hdigit
    simp only [comes, List.cons_append, List.head?_cons, Option.any_some] at hdigit
    simp [TokenKind.breaks, isWordPart, hdigit] at hc

/-- **A prefix expression with a step** in the place of its operator. -/
theorem readsWith_prefixUnary (hder : Derives sym us t)
    (hscans : Scans 0 source.text (ts ++ (us ++ ws)))
    (hspelled : ∀ v ∈ ts ++ us, v.lexeme.WellSpelled) (hlaid : Laid source.text t) {old new : UnaryOp}
    (hkind : t.kind = .prefixUnary old) (hstep : new.isStep = true)
    (hsign : ∀ v ∈ ts, v.span.stop = t.span.start → new.symbol.toList ≠ v.text ++ v.text)
    (hmarker : ClosedComment marker) :
    ReadsWith source.text t ts ws
      ((((Graft.retoken t (.prefixUnary new)).withTrailing marker).toTree t.span).render source)
      (((Graft.retoken t (.prefixUnary new)).withTrailing marker).toTree t.span).yield := by
  obtain ⟨u, vs, c, rfl, hu, ht, hc⟩ := hder.prefixUnary_inv hkind
  obtain ⟨hbefore, hhere⟩ := List.forall_mem_append.mp hspelled
  have hspan : t.span = hull (u :: vs) := by rw [ht]; rfl
  refine readsWith_retoken [] vs (k := .mark new.mark) hscans hhere hlaid hspan (by rw [ht]; rfl)
    (by rw [hkind]; rfl) rfl (new.lexeme_eq ▸ Lexeme.wellSpelled_mark _) ?_ ?_ ?_ hmarker
  · intro d hd
    rw [ht, Tree.yield_node, hd, ← new.lexeme_eq, ← hc.yield_eq]
    simp [Kind.phrase, Tree.words, Tree.children]
  · intro A rest rest' last hA htouches
    rw [List.append_nil] at hA htouches ⊢
    refine hA.follow_step hstep ((hhere u List.mem_cons_self).comes_text rest) ?_
    rintro m rfl
    obtain ⟨v, hv, hm, hstop⟩ := htouches _ rfl
    have hmem := List.mem_of_getLast? hv
    have hmark : (⟨.mark m, v.text⟩ : Lexeme).WellSpelled := hm ▸ hbefore v hmem
    rw [← hmark.mark]
    exact hsign v hmem (by rw [hstop, hspan]; rfl)
  · intro Y B _ _
    have hclosed := (UnaryOp.exists_step hstep).1
    exact TokenKind.goesOn_closed (by grind) _

/-- **A postfix expression with the other step** in the place of its own. -/
theorem readsWith_postfixUnary (hder : Derives sym us t)
    (hscans : Scans 0 source.text (ts ++ (us ++ ws)))
    (hspelled : ∀ v ∈ us, v.lexeme.WellSpelled) (hlaid : Laid source.text t) {old new : UnaryOp}
    (hkind : t.kind = .postfixUnary old) (hstep : new.isStep = true)
    (hmarker : ClosedComment marker) :
    ReadsWith source.text t ts ws
      ((((Graft.retoken t (.postfixUnary new)).withTrailing marker).toTree t.span).render source)
      (((Graft.retoken t (.postfixUnary new)).withTrailing marker).toTree t.span).yield := by
  obtain ⟨us, u, c, rfl, hu, ht, hc⟩ := hder.postfixUnary_inv hkind
  refine readsWith_retoken us [] (k := .mark new.mark) hscans hspelled hlaid (by rw [ht]; rfl)
    (by rw [ht]; rfl) (by rw [hkind]; rfl) rfl (new.lexeme_eq ▸ Lexeme.wellSpelled_mark _) ?_ ?_ ?_
    hmarker
  · intro d hd
    rw [ht, Tree.yield_node, hd, ← new.lexeme_eq, ← hc.yield_eq]
    simp [Kind.phrase, Tree.words, Tree.children]
  · intro A rest rest' last hA htouches
    refine hA.follow_step hstep ((hspelled u (by simp)).comes_text rest) ?_
    rintro m rfl hsame
    -- What ends an expression is no sign.
    obtain ⟨v, hv, hm, -⟩ := htouches _ rfl
    obtain ⟨us, w, rfl, hw⟩ := hc.exists_last
    rw [← List.append_assoc, List.getLast?_concat] at hv
    obtain rfl := Option.some.inj hv
    rw [hm] at hw
    rw [UnaryOp.symbol_toList] at hsame
    cases m <;> cases hw <;> cases new <;> cases hstep <;> cases hsame
  · intro Y B _ _
    have hclosed := (UnaryOp.exists_step hstep).1
    exact TokenKind.goesOn_closed (by grind) _

/-- **An identifier with another name.** -/
theorem readsWith_identifier (hder : Derives sym us t)
    (hscans : Scans 0 source.text (ts ++ (us ++ ws)))
    (hspelled : ∀ v ∈ us, v.lexeme.WellSpelled) (hlaid : Laid source.text t) {old new : String}
    (hkind : t.kind = .identifier old) (hnew : SpellsName new)
    (hmarker : ClosedComment marker) :
    ReadsWith source.text t ts ws
      ((((Graft.retoken t (.identifier new)).withTrailing marker).toTree t.span).render source)
      (((Graft.retoken t (.identifier new)).withTrailing marker).toTree t.span).yield := by
  obtain ⟨u, rfl, hu, ht⟩ := hder.identifier_inv hkind
  have hname : u.kind = .identifier := congrArg Lexeme.kind hu
  refine readsWith_retoken [] [] (k := .identifier) hscans hspelled hlaid
    (by rw [ht]; rfl) (by rw [ht]; rfl) (by rw [hkind]; rfl) rfl hnew ?_ ?_ ?_ hmarker
  · intro d hd
    rw [Tree.yield_node, hd]
    rfl
  · intro A rest rest' last hA _
    have hold : (⟨.identifier, u.text⟩ : Lexeme).WellSpelled := hname ▸ hspelled u (by simp)
    obtain ⟨c, cs, hc, hstart⟩ := hold.exists_start
    obtain ⟨c', cs', hc', hstart'⟩ := hnew.exists_start
    rw [hc] at hA
    rw [hc']
    exact hA.follow_word hstart hstart'
  · intro Y B hends hY
    obtain rfl := hY rfl
    rw [hname] at hends
    rcases Render.comment_cases marker with hnone | ⟨rest, hsome⟩
    · rwa [hnone]
    · rw [hsome]
      exact TokenKind.goesOn_inert (by decide)

/-- **A semicolon** in the place of a statement. -/
theorem readsWith_deletion (hder : Derives sym us t) (hsym : sym ≠ .unit)
    (hscans : Scans 0 source.text (ts ++ (us ++ ws))) (hspelled : ∀ v ∈ us, v.lexeme.WellSpelled)
    (hmarker : ClosedComment marker) :
    ReadsWith source.text t ts ws
      ((((Graft.synthetic .emptyStatement []).withTrailing marker).toTree t.span).render source)
      (((Graft.synthetic .emptyStatement []).withTrailing marker).toTree t.span).yield := by
  obtain ⟨A, M, B, last, htext, hstart, hstop, hA, -, hhead, -, hrest⟩ :=
    hscans.exists_cut (hder.ne_nil hsym) fun v hv => (hspelled v hv).ne_end
  rw [Nat.zero_add, ← hder.span_eq] at hstart
  rw [← hder.span_eq] at hstop
  obtain ⟨u, us, rfl⟩ := List.exists_cons_of_ne_nil (hder.ne_nil hsym)
  obtain ⟨more, rfl⟩ := hhead u rfl
  have hline : comes (· != '\n') (u.text ++ more ++ B) = true := by
    rw [List.append_assoc]
    exact (hspelled u List.mem_cons_self).comes_text _
  have hsemicolon : Stretch (Render.comment marker ++ B) [';'] [.mark .semicolon] _ :=
    .word (Lexeme.wellSpelled_mark .semicolon) (TokenKind.goesOn_closed (by decide) _)
  have hend := hsemicolon.append (Stretch.comment hmarker B)
  have hA' : Stretch ([';'] ++ Render.comment marker ++ B) A (ts.map Token.lexeme) last :=
    hA.follow_inert (fun _ => hline) (by decide)
  have hall := hA'.append hend
  rw [Rewrite.toTree_deletion, Tree.render_node]
  refine hall.readsWith hrest ?_ ?_
  · rw [htext, ← hstart, slice_left]
    rfl
  · rw [htext, ← hstop, ← hstart, ← List.append_assoc, ← width_append, slice_right]

end Rewritten

/-! ## Binary expressions -/

/-- Words in parentheses, or as they are. -/
def enclosed (parenthesized : Bool) (ls : List Lexeme) : List Lexeme :=
  if parenthesized then .mark .openParen :: (ls ++ [.mark .closeParen]) else ls

/-- Parentheses or nothing come before a text. -/
theorem exists_wrapped_head (b : Bool) (c : Char) (text : Text) :
    ∃ d rest, wrapped b (c :: text) = d :: rest ∧ (d = c ∨ d = '(') := by
  cases b with
  | true => exact ⟨_, _, rfl, .inr rfl⟩
  | false => exact ⟨_, _, rfl, .inl rfl⟩

namespace Stretch

variable {text after rest G H : Text} {c d : Char} {k : TokenKind} {ls ms : List Lexeme}
  {last : Option TokenKind}

/-- What stands between tokens begins with a blank or a slash. -/
theorem head_gap (h : Stretch after (c :: text) [] last) : Scan.isBlank c = true ∨ c = '/' := by
  cases h with
  | trivia is _ =>
      rcases lexeme_eq_trivia.mp is with ⟨hblank, -⟩ | ⟨hslash, -⟩
      · exact .inl hblank
      · exact .inr hslash

/-- A stretch of words may be wrapped in parentheses, with a comment before it. -/
theorem wrap (h : Stretch after text ls (some k)) (b : Bool) (marker : Option String) :
    ∃ k', Stretch (Render.comment marker ++ after) (wrapped b text) (enclosed b ls) (some k') := by
  cases b with
  | true => exact ⟨_, h.parenthesized⟩
  | false => exact ⟨k, h.resume marker⟩

/-- An operator may follow an operand and a gap, also in parentheses. -/
theorem wrap_gap (h : Stretch (G ++ after) text ls (some k)) (hG : Stretch after G [] none)
    (hline : comes (· != '\n') after = true) (hend : k.endsExpression = true) (b : Bool)
    (op : BinaryOp) (rest : Text) : ∃ last,
      Stretch (op.symbol.toList ++ rest) (wrapped b text ++ G) (enclosed b ls) last := by
  obtain ⟨c, cs, hsymbol, hc⟩ : ∃ c cs, op.symbol.toList = c :: cs ∧ TokenKind.breaks c = true := by
    rw [BinaryOp.symbol_toList]
    cases op <;> exact ⟨_, _, rfl, rfl⟩
  rw [hsymbol]
  cases b with
  | true =>
      have hgap : Stretch (c :: cs ++ rest) G [] none := hG.follow_breaks (fun _ => hline) nofun hc
      have hall := h.parenthesized.append hgap
      rw [List.append_nil] at hall
      exact ⟨_, hall⟩
  | false =>
      have hall := h.append hG
      rw [List.append_nil] at hall
      refine ⟨_, hall.follow_breaks (fun _ => hline) (fun k' hk => ?_) hc⟩
      split at hk
      · obtain rfl := Option.some.inj hk
        exact hend
      · cases hk

/-- A gap may stand before an operand in parentheses. -/
theorem gap_wrap (h : Stretch (c :: text ++ after) G [] none) (hc : c ≠ '\n') (b : Bool)
    (rest : Text) : Stretch (wrapped b (c :: text) ++ rest) G [] none := by
  obtain ⟨d, text', htext, hd⟩ := exists_wrapped_head b c text
  rw [htext]
  refine h.follow nofun (fun hdigit => ?_) fun _ => by simpa [comes] using hc
  rcases hd with rfl | rfl
  · exact hdigit
  · cases hdigit

/-- An operator may stand before a gap and an operand if it does not run together with them. -/
theorem operator {op : BinaryOp} (hop : op ∈ BinaryOp.interchangeable)
    (hG : Stretch after G [] none) (hc : c ∉ ['=', '*']) (b : Bool)
    (hruns : op ∈ [.add, .sub, .div] →
      ¬op.symbol.toList <+: G ++ wrapped b (c :: text)) (rest : Text) :
    Stretch (G ++ wrapped b (c :: text) ++ rest) op.symbol.toList [.mark op.mark]
      (some (.mark op.mark)) := by
  simp only [List.mem_cons, List.not_mem_nil, or_false, not_or] at hc
  obtain ⟨d, X, hX, hd⟩ := exists_wrapped_head b c text
  obtain ⟨x, Y, hY, hequal, hstar⟩ :
      ∃ x Y, G ++ wrapped b (c :: text) = x :: Y ∧ x ≠ '=' ∧ x ≠ '*' := by
    cases G with
    | nil =>
        refine ⟨d, X, hX, ?_⟩
        rcases hd with rfl | rfl
        · exact hc
        · decide
    | cons x G =>
        refine ⟨x, _, rfl, ?_⟩
        rcases hG.head_gap with hblank | rfl
        · constructor <;> rintro rfl <;> cases hblank
        · decide
  rw [hY] at hruns ⊢
  rw [BinaryOp.symbol_toList]
  refine .word (Lexeme.wellSpelled_mark op.mark) (TokenKind.goesOn_operator hop hequal hstar ?_)
  intro hlone hsame
  refine hruns hlone ?_
  rw [hsame]
  exact ⟨Y, rfl⟩

/-- **An operator between operands and gaps**, each operand in parentheses or as it is. -/
theorem operation {B L R : Text} {k' : TokenKind} (hL : Stretch (G ++ after) L ls (some k))
    (hend : k.endsExpression = true) (hG : Stretch after G [] none)
    (hafter : comes (· != '\n') after = true) (hH : Stretch (c :: R ++ B) H [] none)
    (hR : Stretch B (c :: R) ms (some k')) (hc : c ∉ ['\n', '=', '*']) {new : BinaryOp}
    (hnew : new ∈ BinaryOp.interchangeable) (bL bR : Bool)
    (hruns : new ∈ [.add, .sub, .div] →
      ¬new.symbol.toList <+: H ++ wrapped bR (c :: R)) (marker : Option String) :
    ∃ k, Stretch (Render.comment marker ++ B)
      (wrapped bL L ++ G ++ (new.symbol.toList ++ (H ++ wrapped bR (c :: R))))
      (enclosed bL ls ++ .mark new.mark :: enclosed bR ms) (some k) := by
  obtain ⟨hline, hc⟩ := not_or.mp (List.mem_cons.not.mp hc)
  obtain ⟨kR, hright⟩ := hR.wrap bR marker
  have hgap := hH.gap_wrap hline bR (Render.comment marker ++ B)
  have hoperator := Stretch.operator hnew hH hc bR hruns (Render.comment marker ++ B)
  obtain ⟨last, hleft⟩ := hL.wrap_gap hG hafter hend bL new
    ((H ++ wrapped bR (c :: R)) ++ (Render.comment marker ++ B))
  rw [← List.append_assoc new.symbol.toList] at hleft
  have hall := hleft.append (hoperator.append (hgap.append hright))
  obtain ⟨d, X, hX, -⟩ := exists_wrapped_head bR c R
  rw [if_neg (by simp [hX]), if_neg (by simp [hX]), if_neg (by simp [hX])] at hall
  exact ⟨kR, by simpa using hall⟩

end Stretch

/-! ## A text cut at a binary expression -/

/-- A text cut around an operator and its operands. -/
structure CutAtOperator (s : Text) (ts us : List Token) (u : Token) (vs ws : List Token)
    (A L G H R B : Text) : Prop where
  text : s = A ++ (L ++ (G ++ (u.text ++ (H ++ (R ++ B)))))
  startLeft : width A = (hull us).start
  stopLeft : (hull us).start + width L = (hull us).stop
  start : (hull us).stop + width G = u.span.start
  stop : u.span.start + width u.text = u.span.stop
  startRight : u.span.stop + width H = (hull vs).start
  stopRight : (hull vs).start + width R = (hull vs).stop
  before : ∃ last, Stretch (L ++ (G ++ (u.text ++ (H ++ (R ++ B))))) A (ts.map Token.lexeme) last
  headLeft : ∀ w ∈ us.head?, ∃ more, L = w.text ++ more
  left : ∃ w ∈ us.getLast?,
    Stretch (G ++ (u.text ++ (H ++ (R ++ B)))) L (us.map Token.lexeme) (some w.kind)
  gapLeft : Stretch (u.text ++ (H ++ (R ++ B))) G [] none
  gapRight : Stretch (R ++ B) H [] none
  headRight : ∀ w ∈ vs.head?, ∃ more, R = w.text ++ more
  right : ∃ k, Stretch B R (vs.map Token.lexeme) (some k)
  rest : Scans (hull vs).stop B ws

/-- A text can be cut around an operator and its operands. -/
theorem exists_cutAtOperator (h : Scans 0 s (ts ++ ((us ++ u :: vs) ++ ws))) (hus : us ≠ [])
    (hvs : vs ≠ []) (hreal : ∀ v ∈ us ++ u :: vs, v.kind ≠ .endOfInput) :
    ∃ A L G H R B, CutAtOperator s ts us u vs ws A L G H R B := by
  obtain ⟨hleft, hright⟩ := List.forall_mem_append.mp hreal
  obtain ⟨hoperator, hright⟩ := List.forall_mem_cons.mp hright
  rw [List.append_assoc, List.cons_append] at h
  obtain ⟨A, L, rest, last, htext, hstartLeft, hstopLeft, hA, -, hheadLeft, hL, hscans⟩ :=
    h.exists_cut hus hleft
  rw [Nat.zero_add] at hstartLeft
  rw [← List.nil_append (u :: (vs ++ ws))] at hscans
  obtain ⟨G, rest, lastG, rfl, hstart, hG, hnoneG, hscans⟩ := hscans.exists_before
  obtain ⟨rest, rfl, hstop, -, hscans⟩ := hscans.exists_text hoperator
  rw [← List.nil_append (vs ++ ws)] at hscans
  obtain ⟨H, R, B, lastH, rfl, hstartRight, hstopRight, hH, hnoneH, hheadRight, hR, hscans⟩ :=
    hscans.exists_cut hvs hright
  have hnone : ∀ {last : Option TokenKind} {n}, (∀ k ∈ last, ∃ t ∈ ([] : List Token).getLast?,
      t.kind = k ∧ t.span.stop = n) → last = none := by
    intro last n hlast
    rw [Option.eq_none_iff_forall_not_mem]
    intro k hk
    obtain ⟨t, ht, -⟩ := hlast k hk
    cases ht
  obtain rfl := hnone hnoneG
  obtain rfl := hnone hnoneH
  obtain ⟨w, -, hR⟩ := hR
  exact ⟨A, L, G, H, R, B, htext, hstartLeft, hstopLeft, hstart, hstop, hstartRight, hstopRight,
    ⟨last, hA⟩, hheadLeft, hL, hG, hH, hheadRight, ⟨w.kind, hR⟩, hscans⟩

/-- An expression stands with its parentheses and a comment where another one with the same first
character does. -/
theorem Stretch.place {A B after body body' : Text} {c d : Char} {k : TokenKind}
    {ls ms : List Lexeme} {last : Option TokenKind} (hA : Stretch (c :: after) A ls last)
    (hpoint : c ≠ '.') (hline : c ≠ '\n') (hhead : body = d :: body') (hd : d = c ∨ d = '(')
    (hbody : Stretch (Render.comment marker ++ B) body ms (some k)) (b : Bool)
    (hmarker : ClosedComment marker) :
    ∃ last, Stretch B (A ++ (wrapped b body ++ Render.comment marker))
      (ls ++ enclosed b ms) last := by
  obtain ⟨k', hwhole⟩ := hbody.wrap b none
  obtain ⟨e, X, hX, he⟩ := exists_wrapped_head b d body'
  rw [← hhead] at hX
  have hbefore : Stretch ((wrapped b body ++ Render.comment marker) ++ B) A ls last := by
    rw [hX]
    have hfirst : e = c ∨ e = '(' := he.elim (fun h => h ▸ hd) .inr
    rcases hfirst with rfl | rfl
    · exact hA.follow_head hpoint hline
    · exact hA.follow_inert (fun _ => by simpa [comes] using hline) (by decide)
  have hall := hbefore.append (Stretch.append hwhole (Stretch.comment hmarker B))
  rw [List.append_nil] at hall
  exact ⟨_, hall⟩

namespace CutAtOperator

variable {A L G H R B : Text}

/-- The parts of the source around a binary expression and in it. -/
theorem slices (h : CutAtOperator s ts us u vs ws A L G H R B) :
    slice s 0 (hull us).start = A ∧ slice s (hull us).start (hull us).stop = L ∧
      slice s (hull us).stop u.span.start = G ∧ slice s u.span.stop (hull vs).start = H ∧
      slice s (hull vs).start (hull vs).stop = R ∧ slice s (hull vs).stop (width s) = B := by
  have hL : width (A ++ L) = (hull us).stop := by rw [width_append, h.startLeft, h.stopLeft]
  have hG : width (A ++ L ++ G) = u.span.start := by rw [width_append, hL, h.start]
  have hO : width (A ++ L ++ G ++ u.text) = u.span.stop := by rw [width_append, hG, h.stop]
  have hH : width (A ++ L ++ G ++ u.text ++ H) = (hull vs).start := by
    rw [width_append, hO, h.startRight]
  have hR : width (A ++ L ++ G ++ u.text ++ H ++ R) = (hull vs).stop := by
    rw [width_append, hH, h.stopRight]
  have htext := h.text
  refine ⟨?_, ?_, ?_, ?_, ?_, ?_⟩
  · rw [htext, ← h.startLeft, slice_left]
  · rw [htext]
    exact slice_eq A L _ h.startLeft (h.startLeft ▸ h.stopLeft)
  · rw [htext, ← List.append_assoc A]
    exact slice_eq (A ++ L) G _ hL (hL ▸ h.start)
  · rw [htext, ← List.append_assoc A, ← List.append_assoc (A ++ L), ← List.append_assoc _ u.text]
    exact slice_eq (A ++ L ++ G ++ u.text) H _ hO (hO ▸ h.startRight)
  · rw [htext, ← List.append_assoc A, ← List.append_assoc (A ++ L), ← List.append_assoc _ u.text,
      ← List.append_assoc _ H]
    exact slice_eq (A ++ L ++ G ++ u.text ++ H) R _ hH (hH ▸ h.stopRight)
  · have hall : s = A ++ L ++ G ++ u.text ++ H ++ R ++ B := by simpa using htext
    rw [hall, ← hR, slice_right]

/-- Other texts in the places of the operands and the operator. -/
theorem fill_eq (h : CutAtOperator s ts us u vs ws A L G H R B) (first new second : Text) :
    fill s (hull us).start (hull vs).stop [(hull us, first), (u.span, new), (hull vs, second)] =
      first ++ G ++ (new ++ (H ++ second)) := by
  obtain ⟨-, -, hG, hH, -⟩ := h.slices
  simp only [fill, hG, hH, slice_self, List.nil_append, List.append_nil, List.append_assoc]

/-- **Another operator between the operands** is read as such if it does not run together with what
follows it, whatever is put in parentheses. -/
theorem readsWith (h : CutAtOperator s ts us u vs ws A L G H R B)
    (hspan : t.span = ⟨(hull us).start, (hull vs).stop⟩) {p q : Nat} {left right : Tree}
    (hleft : Derives (.expression p) us left) (hright : Derives (.expression q) vs right)
    (hspelled : ∀ v ∈ us ++ u :: vs, v.lexeme.WellSpelled) {new : BinaryOp}
    (hnew : new ∈ BinaryOp.interchangeable) (bL bR b : Bool)
    (hruns : new ∈ [.add, .sub, .div] → ¬new.symbol.toList <+: H ++ wrapped bR R)
    (hmarker : ClosedComment marker) :
    ReadsWith s t ts ws
      (wrapped b (wrapped bL L ++ G ++ (new.symbol.toList ++ (H ++ wrapped bR R))) ++
        Render.comment marker)
      (enclosed b (enclosed bL (us.map Token.lexeme) ++
        .mark new.mark :: enclosed bR (vs.map Token.lexeme))) := by
  obtain ⟨hspelledLeft, hspelledRest⟩ := List.forall_mem_append.mp hspelled
  obtain ⟨hoperator, hspelledRight⟩ := List.forall_mem_cons.mp hspelledRest
  obtain ⟨hA, -, -, -, -, hB⟩ := h.slices
  -- The first characters of the operands, and the last token of the first one.
  obtain ⟨l, _, c, cs, rfl, hl, hc⟩ := hleft.exists_first hspelledLeft
  obtain ⟨r, _, d, ds, rfl, hr, hd⟩ := hright.exists_first hspelledRight
  obtain ⟨L, rfl⟩ := h.headLeft l rfl
  obtain ⟨R, rfl⟩ := h.headRight r rfl
  rw [hl, hr, List.cons_append, List.cons_append] at h
  rw [hr, List.cons_append] at hruns
  rw [hl, hr, List.cons_append, List.cons_append]
  obtain ⟨w, hw, hfirst⟩ := h.left
  have hend : w.kind.endsExpression = true := by
    obtain ⟨us', w', hlast, hw'⟩ := hleft.exists_last
    rw [hlast, List.getLast?_concat] at hw
    exact Option.some.inj hw ▸ hw'
  obtain ⟨k, hsecond⟩ := h.right
  have hd' : d ∉ ['\n', '=', '*'] := fun hmem => hd (by grind)
  obtain ⟨k', hbody⟩ := hfirst.operation hend h.gapLeft (hoperator.comes_text _) h.gapRight hsecond
    hd' hnew bL bR hruns marker
  -- The whole behind what stands before it.
  obtain ⟨last, hbefore⟩ := h.before
  obtain ⟨x, X, hX, hx⟩ := exists_wrapped_head bL c (cs ++ L)
  rw [hX, List.append_assoc, List.cons_append] at hbody
  obtain ⟨last, hall⟩ := hbefore.place (fun h => hc (by grind)) (fun h => hc (by grind)) rfl hx
    hbody b hmarker
  rw [← List.append_assoc] at hall
  refine hall.readsWith h.rest ?_ (by rw [hspan, hB])
  rw [hspan, hA, hX]
  simp

end CutAtOperator

namespace Rewrite

variable {left right : Tree}

/-- Parentheses yield what they hold, enclosed. -/
theorem yield_parenthesized {d : Node} (hkind : d.kind = .parenthesized) (t : Tree) :
    (Tree.node d [t]).yield = enclosed true t.yield := by
  rw [Tree.yield_node, hkind]
  simp [Kind.phrase, Tree.words, enclosed]

/-- An operand yields its words, enclosed if it binds less than its place asks. -/
theorem yield_operand (precedence : Nat) (first : Bool) (t : Tree) (anchor : Span) :
    ((operand precedence first t).toTree anchor).yield =
      enclosed (t.kind.precedence < precedence || (!first && t.kind.precedence == precedence))
        t.yield := by
  rw [toTree_operand]
  split
  · rename_i hneeds
    rw [hneeds, yield_parenthesized rfl]
  · rename_i hneeds
    rw [Bool.eq_false_iff.mpr hneeds]
    rfl

/-- The words of a binary expression with another operator. -/
theorem yield_withOperator (hchildren : t.children = [left, right]) (place : Option Place)
    (new : BinaryOp) (marker : Option String) :
    (((withOperator t place new).withTrailing marker).toTree t.span).yield =
      enclosed (place.any fun p => p.needsParentheses new.precedence)
        (enclosed (left.kind.precedence < new.precedence) left.yield ++
          .mark new.mark :: enclosed (right.kind.precedence ≤ new.precedence) right.yield) := by
  have hmade : ∀ trailing, ((((Graft.retoken t (.binary new)).withChildren
      (operands new.precedence [left, right])).withTrailing trailing).toTree t.span).yield =
        enclosed (left.kind.precedence < new.precedence) left.yield ++
          .mark new.mark :: enclosed (right.kind.precedence ≤ new.precedence) right.yield := by
    intro trailing
    refine (congrArg Tree.yield (toTree_operator t left right new trailing t.span)).trans ?_
    rw [Tree.yield_node, ← needs_first, ← needs_second, ← yield_operand _ _ _ t.span,
      ← yield_operand _ _ _ t.span]
    simp [Kind.phrase, Tree.words]
  rw [withOperator, hchildren]
  split
  · rename_i hneeds
    rw [hneeds, toTree_parenthesize t.span rfl, yield_parenthesized rfl]
    exact congrArg (enclosed true) (hmade none)
  · rename_i hneeds
    rw [Bool.eq_false_iff.mpr hneeds]
    exact hmade marker

end Rewrite

/-- The extent of a binary expression goes from its first operand to its second. -/
theorem hull_operator (hus : us ≠ []) (hvs : vs ≠ []) :
    hull (us ++ u :: vs) = ⟨(hull us).start, (hull vs).stop⟩ := by
  obtain ⟨v, us, rfl⟩ := List.exists_cons_of_ne_nil hus
  obtain ⟨w, vs, rfl⟩ := List.exists_cons_of_ne_nil hvs
  simp [hull, stopAfter_append]

/-- **A binary expression with another operator** that does not run together with what follows
it. -/
theorem readsWith_binary {source : Source} {sym : Symbol} (hder : Derives sym us t)
    (hscans : Scans 0 source.text (ts ++ (us ++ ws))) (hspelled : ∀ v ∈ us, v.lexeme.WellSpelled)
    (hlaid : Laid source.text t) {old new : BinaryOp} (hkind : t.kind = .binary old)
    (hnew : new ∈ BinaryOp.interchangeable) (place : Option Rewrite.Place)
    (hruns : ∀ left right token, t.children = [left, right] → t.root.token = some token →
      new ∈ [.add, .sub, .div] → ¬new.symbol.toList <+:
        slice source.text token.stop right.span.start ++
          wrapped (right.kind.precedence ≤ new.precedence)
            (slice source.text right.span.start right.span.stop))
    (hmarker : ClosedComment marker) :
    ReadsWith source.text t ts ws
      ((((Rewrite.withOperator t place new).withTrailing marker).toTree t.span).render source)
      (((Rewrite.withOperator t place new).withTrailing marker).toTree t.span).yield := by
  obtain ⟨us, u, vs, left, right, rfl, hu, ht, hleft, hright⟩ := hder.binary_inv hkind
  have hus : us ≠ [] := hleft.ne_nil nofun
  have hvs : vs ≠ [] := hright.ne_nil nofun
  have hspan : t.span = ⟨(hull us).start, (hull vs).stop⟩ := by
    rw [hder.span_eq, hull_operator hus hvs]
  have hchildren : t.children = [left, right] := by rw [ht]; rfl
  have htoken : t.root.token = some u.span := by rw [ht]; rfl
  obtain ⟨A, L, G, H, R, B, hcut⟩ :=
    exists_cutAtOperator hscans hus hvs fun v hv => (hspelled v hv).ne_end
  obtain ⟨-, hL, -, hH, hR, -⟩ := hcut.slices
  obtain ⟨token, htoken', -, -, -, hrender⟩ :=
    hlaid.render_withOperator hkind hchildren place new marker
  obtain rfl := Option.some.inj (htoken.symm.trans htoken')
  rw [hleft.span_eq, hright.span_eq, hL, hR, hspan, hcut.fill_eq] at hrender
  specialize hruns left right u.span hchildren htoken
  rw [hright.span_eq, hH, hR] at hruns
  rw [hspan, hrender, ← hspan, Rewrite.yield_withOperator hchildren, hleft.yield_eq,
    hright.yield_eq]
  exact hcut.readsWith hspan hleft hright hspelled hnew _ _ _ hruns hmarker

end SharpMutants
