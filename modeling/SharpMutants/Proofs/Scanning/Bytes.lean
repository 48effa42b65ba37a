import SharpMutants.Proofs.Scanning
import SharpMutants.Syntax.ByteScan

/-!
# Bytes and characters

The first byte of a character tells whether the character is of an ASCII class, and a
character of such a class has no other byte (`Decides`).
-/

namespace SharpMutants

namespace Text

variable {as bs cs : Text} {c : Char} {n : Nat}

theorem bytes_cons (c : Char) (cs : Text) : bytes (c :: cs) = String.utf8EncodeChar c ++ bytes cs :=
  List.flatMap_cons

theorem bytes_append (as bs : Text) : bytes (as ++ bs) = bytes as ++ bytes bs :=
  List.flatMap_append

@[simp] theorem length_bytes (text : Text) : text.bytes.length = text.width := by
  induction text with
  | nil => rfl
  | cons c cs ih => rw [bytes_cons, List.length_append, String.length_utf8EncodeChar, ih, width]

/-- The bytes behind a text are those of what follows it. -/
theorem drop_bytes (as bs : Text) : (bytes (as ++ bs)).drop (width as) = bytes bs := by
  rw [bytes_append, ← length_bytes, List.drop_left]

theorem exists_width_cons (c : Char) (cs : Text) : ∃ n, width (c :: cs) = n + 1 := by
  have hpos := Char.utf8Size_pos c
  exact ⟨width (c :: cs) - 1, by rw [width]; omega⟩

/-- Behind a text is what follows it. -/
theorem after?_width (as bs : Text) : after? (as ++ bs) (width as) = some bs := by
  induction as with
  | nil => cases bs <;> rfl
  | cons c cs ih =>
      obtain ⟨n, hn⟩ := exists_width_cons c cs
      rw [List.cons_append, hn, after?, ← hn, width, if_pos (Nat.le_add_right _ _),
        Nat.add_sub_cancel_left, ih]

/-- Before what follows a text is the text. -/
theorem before?_width (as bs : Text) : before? (as ++ bs) (width as) = some as := by
  induction as with
  | nil => cases bs <;> rfl
  | cons c cs ih =>
      obtain ⟨n, hn⟩ := exists_width_cons c cs
      rw [List.cons_append, hn, before?, ← hn, width, if_pos (Nat.le_add_right _ _),
        Nat.add_sub_cancel_left, ih]
      rfl

end Text

namespace ByteScan

/-- A character of one byte is that byte. -/
theorem toNat_toUInt8 {c : Char} (hc : c.toNat < 128) : c.toUInt8.toNat = c.toNat := by
  have hval : c.toNat = c.val.toNat := rfl
  rw [Char.toUInt8, UInt32.toNat_toUInt8, ← hval]
  omega

/-- An ASCII character is one byte, and the bytes of the others are none of ASCII characters. -/
theorem utf8EncodeChar_cases (c : Char) :
    (c.toNat < 128 ∧ String.utf8EncodeChar c = [c.toUInt8]) ∨
      128 ≤ c.toNat ∧ ∀ b ∈ String.utf8EncodeChar c, 128 ≤ b.toNat := by
  have hval : c.toNat = c.val.toNat := rfl
  by_cases h : c.val.toNat ≤ 127
  · left
    refine ⟨by omega, String.utf8EncodeChar_eq_singleton ?_⟩
    rw [Char.utf8Size_eq_one_iff, UInt32.le_iff_toNat_le]
    exact h
  · right
    refine ⟨by omega, ?_⟩
    unfold String.utf8EncodeChar
    simp only [h, if_false]
    split
    · simp only [List.mem_cons, List.not_mem_nil, or_false, forall_eq_or_imp, forall_eq,
        UInt8.toNat_ofNat']
      omega
    · split <;> simp only [List.mem_cons, List.not_mem_nil, or_false, forall_eq_or_imp, forall_eq,
        UInt8.toNat_ofNat'] <;> omega

/-- The first byte of a character tells whether the character is of a class, and there is no other
byte if it is. -/
def Decides (p : UInt8 → Bool) (q : Char → Bool) : Prop :=
  ∀ c, ∃ b bs, String.utf8EncodeChar c = b :: bs ∧ p b = q c ∧ (q c = true → bs = [])

/-- A class of ASCII characters is decided by their bytes. -/
theorem decides_of_ascii {p : UInt8 → Bool} {q : Char → Bool}
    (hascii : ∀ c : Char, c.toNat < 128 → p c.toUInt8 = q c)
    (hp : ∀ b : UInt8, 128 ≤ b.toNat → p b = false) (hq : ∀ c : Char, 128 ≤ c.toNat → q c = false) :
    Decides p q := by
  intro c
  rcases utf8EncodeChar_cases c with ⟨hc, hbytes⟩ | ⟨hc, hbytes⟩
  · exact ⟨_, [], hbytes, hascii c hc, fun _ => rfl⟩
  · have hlength := String.length_utf8EncodeChar c
    cases h : String.utf8EncodeChar c with
    | nil =>
        have := Char.utf8Size_pos c
        rw [h, List.length_nil] at hlength
        omega
    | cons b bs =>
        rw [h] at hbytes
        refine ⟨b, bs, rfl, ?_, ?_⟩
        · rw [hp b (hbytes b List.mem_cons_self), hq c hc]
        · rw [hq c hc]
          nofun

/-- A byte decides whether a character is in a range of one-byte characters. -/
theorem decides_isBetween {d e : Char} (hd : d.toNat < 128) (he : e.toNat < 128) :
    Decides (isBetween d e) fun c => decide (d ≤ c ∧ c ≤ e) := by
  have hle : ∀ c c' : Char, c ≤ c' ↔ c.toNat ≤ c'.toNat := fun c c' => UInt32.le_iff_toNat_le
  apply decides_of_ascii
  · intro c hc
    simp only [isBetween, UInt8.le_iff_toNat_le, hle, toNat_toUInt8 hd, toNat_toUInt8 he,
      toNat_toUInt8 hc]
  · intro b hb
    simp only [isBetween, UInt8.le_iff_toNat_le, toNat_toUInt8 hd, toNat_toUInt8 he,
      decide_eq_false_iff_not]
    omega
  · intro c hc
    simp only [hle, decide_eq_false_iff_not]
    omega

/-- A byte decides whether a character is one of one byte. -/
theorem decides_isByte {d : Char} (hd : d.toNat < 128) : Decides (isByte d) (· == d) := by
  have heq : ∀ c : Char, c = d ↔ c.toNat = d.toNat := fun c => Char.toNat_inj.symm
  apply decides_of_ascii
  · intro c hc
    rw [isByte, Bool.eq_iff_iff, beq_iff_eq, beq_iff_eq, heq, ← UInt8.toNat_inj, toNat_toUInt8 hd,
      toNat_toUInt8 hc]
  · intro b hb
    rw [isByte, beq_eq_false_iff_ne, ne_eq, ← UInt8.toNat_inj, toNat_toUInt8 hd]
    omega
  · intro c hc
    rw [beq_eq_false_iff_ne, ne_eq, heq]
    omega

namespace Decides

variable {p p' : UInt8 → Bool} {q q' : Char → Bool}

/-- A byte decides whether a character is of one class or another. -/
theorem or (h : Decides p q) (h' : Decides p' q') :
    Decides (fun b => p b || p' b) fun c => q c || q' c := by
  intro c
  obtain ⟨b, bs, hbytes, hp, hq⟩ := h c
  obtain ⟨b', bs', hbytes', hp', hq'⟩ := h' c
  obtain ⟨rfl, rfl⟩ := List.cons.inj (hbytes.symm.trans hbytes')
  refine ⟨b, bs, hbytes, by simp only [hp, hp'], fun hor => ?_⟩
  rcases Bool.or_eq_true_iff.mp hor with hc | hc
  · exact hq hc
  · exact hq' hc

/-- The first characters of a class are the first bytes of it. -/
theorem takeWhile_bytes (h : Decides p q) (text : Text) :
    text.bytes.takeWhile p = Text.bytes (text.takeWhile q) := by
  induction text with
  | nil => rfl
  | cons c cs ih =>
      obtain ⟨b, bs, hbytes, hp, hq⟩ := h c
      rw [Text.bytes_cons, hbytes, List.cons_append, List.takeWhile_cons, List.takeWhile_cons, hp]
      cases hc : q c with
      | true =>
          obtain rfl := hq hc
          rw [if_pos rfl, if_pos rfl, Text.bytes_cons, hbytes, List.nil_append, ih]
          rfl
      | false => rfl

/-- A character of a class comes next if a byte of it does. -/
theorem head?_bytes (h : Decides p q) (text : Text) :
    text.bytes.head?.any p = Scan.comes q text := by
  cases text with
  | nil => rfl
  | cons c cs =>
      obtain ⟨b, bs, hbytes, hp, -⟩ := h c
      rw [Text.bytes_cons, hbytes, List.cons_append, List.head?_cons, Option.any_some, hp]
      rfl

end Decides

/-- A byte decides whether a character is a blank. -/
theorem decides_isBlank : Decides isBlank Scan.isBlank :=
  (((((decides_isByte (by decide)).or (decides_isByte (by decide))).or
    (decides_isByte (by decide))).or (decides_isByte (by decide))).or (decides_isByte (by decide)))

/-- A byte decides whether a character is a digit. -/
theorem decides_isDigit : Decides isDigit Scan.isDigit :=
  decides_isBetween (by decide) (by decide)

/-- A byte decides whether a character begins a word. -/
theorem decides_isWordStart : Decides isWordStart Scan.isWordStart :=
  ((decides_isBetween (by decide) (by decide)).or (decides_isBetween (by decide) (by decide))).or
    (decides_isByte (by decide))

/-- A byte decides whether a character is part of a word. -/
theorem decides_isWordPart : Decides isWordPart Scan.isWordPart :=
  decides_isWordStart.or decides_isDigit

/-- Where a point comes, a text begins with it. -/
theorem exists_point {text : Text} (h : Scan.comes (· == '.') text = true) :
    ∃ tail, text = '.' :: tail := by
  cases text with
  | nil => cases h
  | cons d tail => exact ⟨tail, by simpa [Scan.comes] using h⟩

/-- A point and a digit come next if their bytes do. -/
theorem fractionComes_bytes (text : Text) : (text.bytes.head?.any (isByte '.') &&
    text.bytes.tail.head?.any isDigit) = Scan.fractionComes text := by
  have hpoint : text.bytes.head?.any (isByte '.') = Scan.comes (· == '.') text :=
    (decides_isByte (by decide)).head?_bytes text
  rw [hpoint, Scan.fractionComes]
  cases hcomes : Scan.comes (· == '.') text with
  | false => rfl
  | true =>
      obtain ⟨tail, rfl⟩ := exists_point hcomes
      exact congrArg (true && ·) (decides_isDigit.head?_bytes tail)

/-- The bytes of a character: the first one tells it from ASCII characters, and the others are none
of these. -/
theorem exists_bytes (c : Char) : ∃ b bs, String.utf8EncodeChar c = b :: bs ∧
    bs.length + 1 = c.utf8Size ∧ (∀ b ∈ bs, 128 ≤ b.toNat) ∧
      ∀ d : Char, d.toNat < 128 → isByte d b = (c == d) := by
  obtain ⟨b, bs, hbytes, -, -⟩ := decides_isDigit c
  refine ⟨b, bs, hbytes, ?_, fun b' hb' => ?_, fun d hd => ?_⟩
  · rw [← String.length_utf8EncodeChar, hbytes, List.length_cons]
  · rcases utf8EncodeChar_cases c with ⟨-, hone⟩ | ⟨-, hall⟩
    · obtain ⟨-, rfl⟩ := List.cons.inj (hbytes.symm.trans hone)
      cases hb'
    · exact hall b' (hbytes ▸ List.mem_cons_of_mem b hb')
  · obtain ⟨b', bs', hbytes', hbyte, -⟩ := decides_isByte hd c
    obtain ⟨rfl, rfl⟩ := List.cons.inj (hbytes.symm.trans hbytes')
    exact hbyte

/-! ## Strings -/

/-- A string does not go on over a line. -/
theorem stringLength?_newline (bs : List UInt8) : stringLength? (10 :: bs) = none := by
  cases bs <;> rfl

/-- A string ends with a quote. -/
theorem stringLength?_quote (bs : List UInt8) : stringLength? (34 :: bs) = some 1 := by
  cases bs <;> rfl

/-- A string goes on over other bytes. -/
theorem stringLength?_plain {b : UInt8} (hbreak : isByte '\n' b = false)
    (hescape : isByte '\\' b = false) (hquote : isByte '"' b = false) (bs : List UInt8) :
    stringLength? (b :: bs) = (stringLength? bs).map (· + 1) := by
  cases bs <;> simp only [stringLength?, hbreak, hescape, hquote, Bool.false_eq_true, if_false]

/-- Bytes that are none of ASCII characters are passed over in a string. -/
theorem stringLength?_append {bs : List UInt8} (h : ∀ b ∈ bs, 128 ≤ b.toNat) (rest : List UInt8) :
    stringLength? (bs ++ rest) = (stringLength? rest).map (· + bs.length) := by
  induction bs with
  | nil => simp
  | cons b bs ih =>
      obtain ⟨hb, hbs⟩ := List.forall_mem_cons.mp h
      have hplain : ∀ c : Char, c.toNat < 128 → isByte c b = false := by
        intro c hc
        rw [isByte, beq_eq_false_iff_ne, ne_eq, ← UInt8.toNat_inj, toNat_toUInt8 hc]
        omega
      rw [List.cons_append, stringLength?_plain (hplain _ (by decide)) (hplain _ (by decide))
        (hplain _ (by decide)), ih hbs, List.length_cons]
      simp [Function.comp_def, Nat.add_assoc]

/-- A string is as long in bytes as its characters are. -/
theorem stringLength?_bytes (text : Text) : stringLength? text.bytes =
    (Scan.stringLength? text).map fun n => Text.width (text.take n) := by
  induction text using Scan.stringLength?.induct with
  | case1 => rfl
  | case2 cs => exact stringLength?_newline _
  | case3 cs => exact stringLength?_quote _
  | case4 => rfl
  | case5 d cs ih =>
      obtain ⟨b, bs, hbytes, hlength, hbs, -⟩ := exists_bytes d
      have htext : Text.bytes ('\\' :: d :: cs) = 92 :: b :: (bs ++ Text.bytes cs) := by
        rw [Text.bytes_cons, Text.bytes_cons, hbytes]
        rfl
      have hskip : stringLength? (92 :: b :: (bs ++ Text.bytes cs)) =
          (stringLength? (bs ++ Text.bytes cs)).map (· + 2) := rfl
      rw [htext, hskip, stringLength?_append hbs, ih, Scan.stringLength?]
      simp only [Option.map_map]
      congr 1
      funext n
      have hbackslash : '\\'.utf8Size = 1 := rfl
      simp only [Function.comp_apply, List.take_succ_cons, Text.width, ← hlength, hbackslash]
      omega
  | case6 c cs noBreak noQuote noEscape noEscaped ih =>
      obtain ⟨b, bs, hbytes, hlength, hbs, hfirst⟩ := exists_bytes c
      have hplain : c ≠ '\\' := by
        rintro rfl
        cases cs with
        | nil => exact noEscape rfl rfl
        | cons d cs => exact noEscaped d cs rfl rfl
      have hother : ∀ d : Char, d.toNat < 128 → c ≠ d → isByte d b = false := by
        intro d hd hne
        rw [hfirst d hd]
        exact beq_eq_false_iff_ne.mpr hne
      rw [Text.bytes_cons, hbytes, List.cons_append,
        stringLength?_plain (hother _ (by decide) noBreak) (hother _ (by decide) hplain)
          (hother _ (by decide) noQuote), stringLength?_append hbs, ih,
        Scan.stringLength?.eq_6 _ _ noBreak noQuote noEscape noEscaped]
      simp only [Option.map_map]
      congr 1
      funext n
      simp only [Function.comp_apply, List.take_succ_cons, Text.width, ← hlength]
      omega

end ByteScan

namespace Text

/-- The rest of a line is what stands before the first line feed. -/
theorem find?_newline (text : Text) : text.find? ['\n'] =
    if '\n' ∈ text then some (Text.width (text.takeWhile (· != '\n'))) else none := by
  induction text with
  | nil => rfl
  | cons c cs ih =>
      rw [find?, ih]
      by_cases hc : c = '\n'
      · subst hc
        simp [List.isPrefixOf, width]
      · have hmem : '\n' ∈ c :: cs ↔ '\n' ∈ cs := by simp [Ne.symm hc]
        simp only [List.isPrefixOf, hmem, Bool.and_true, List.takeWhile_cons, bne_iff_ne, ne_eq, hc,
          not_false_eq_true, if_true, beq_iff_eq, Ne.symm hc, if_false, width]
        split <;> simp [Nat.add_comm]

/-- A comment ends with the first `*/`. -/
theorem find?_close (text : Text) : (text.find? ['*', '/']).map (· + 2) =
    (Scan.commentLength? text).map fun n => width (text.take n) := by
  induction text using Scan.commentLength?.induct with
  | case1 cs =>
      have hclosed : find? ('*' :: '/' :: cs) ['*', '/'] = some 0 := rfl
      rw [hclosed]
      rfl
  | case2 c cs notClosed ih =>
      have hopen : ['*', '/'].isPrefixOf (c :: cs) = false := by
        rw [← Bool.not_eq_true, List.isPrefixOf_iff_prefix]
        rintro ⟨rest, hrest⟩
        obtain ⟨rfl, rfl⟩ := List.cons.inj hrest
        exact notClosed rest rfl rfl
      have hmore : ∀ n : Option Nat, (n.map (· + c.utf8Size)).map (· + 2) =
          (n.map (· + 2)).map (c.utf8Size + ·) := by
        intro n
        cases n with
        | none => rfl
        | some n => simp; omega
      rw [Scan.commentLength?.eq_2 _ _ notClosed, find?, hopen, if_neg Bool.false_ne_true, hmore,
        ih, Option.map_map, Option.map_map]
      rfl
  | case3 => rfl

end Text

namespace Mark

/-- The first of some marks that passes a test, if just one mark can pass it. -/
theorem find?_eq_some_iff {ms : List Mark} {p : Mark → Bool} (cs : Text)
    (hp : ∀ m ∈ ms, p m = true ↔ m.characters = cs) (hms : ∀ m, m.characters = cs → m ∈ ms)
    {m : Mark} : ms.find? p = some m ↔ m.characters = cs := by
  constructor
  · intro hm
    exact (hp m (List.mem_of_find?_eq_some hm)).mp (List.find?_some hm)
  · intro hm
    cases hfound : ms.find? p with
    | none => exact absurd ((hp m (hms m hm)).mpr hm) (List.find?_eq_none.mp hfound m (hms m hm))
    | some m' =>
        have hsame := (hp m' (List.mem_of_find?_eq_some hfound)).mp (List.find?_some hfound)
        have hlongest := ofStart?_characters m
        rw [hm, ← hsame, ofStart?_characters m'] at hlongest
        exact hlongest

/-- The marks of two characters stand first in the table. -/
theorem table_eq : table = table.take 13 ++ table.drop 13 := (List.take_append_drop 13 table).symm

/-- The marks of the table are its first thirteen or the others. -/
theorem mem_table (m : Mark) : m ∈ table.take 13 ∨ m ∈ table.drop 13 := by
  cases m <;> decide

/-- The first marks of the table have two characters. -/
theorem exists_pair {m : Mark} (hm : m ∈ table.take 13) : ∃ c d, m.characters = [c, d] := by
  have hlength : ∀ m ∈ table.take 13, m.characters.length = 2 := by decide
  exact List.length_eq_two.mp (hlength m hm)

/-- The other marks of the table have one character. -/
theorem exists_single {m : Mark} (hm : m ∈ table.drop 13) : ∃ c, m.characters = [c] := by
  have hlength : ∀ m ∈ table.drop 13, m.characters.length = 1 := by decide
  exact List.length_eq_one_iff.mp (hlength m hm)

/-- Among the first marks a text begins with the one of its first two characters. -/
theorem find?_pairs (c d : Char) (cs : Text) :
    (table.take 13).find? (fun m => m.characters.isPrefixOf (c :: d :: cs)) = ofPair? c d := by
  ext m
  rw [find?_eq_some_iff [c, d], Scan.ofPair?_eq_some]
  · intro m hm
    obtain ⟨a, b, hab⟩ := exists_pair hm
    simp [hab, List.isPrefixOf]
  · intro m hm
    refine (mem_table m).resolve_right fun hsingle => ?_
    obtain ⟨a, ha⟩ := exists_single hsingle
    simp [ha] at hm

/-- Among the other marks a text begins with the one of its first character. -/
theorem find?_singles (c : Char) (cs : Text) :
    (table.drop 13).find? (fun m => m.characters.isPrefixOf (c :: cs)) = ofChar? c := by
  ext m
  rw [find?_eq_some_iff [c], Scan.ofChar?_eq_some]
  · intro m hm
    obtain ⟨d, hd⟩ := exists_single hm
    simp [hd, List.isPrefixOf]
  · intro m hm
    refine (mem_table m).resolve_left fun hpair => ?_
    obtain ⟨a, b, hab⟩ := exists_pair hpair
    simp [hab] at hm

/-- The first mark of the table with which a text begins is the longest one. -/
theorem find?_table (text : Text) :
    table.find? (fun m => m.characters.isPrefixOf text) = ofStart? text := by
  rw [table_eq, List.find?_append]
  match text with
  | [] => rfl
  | [c] =>
      have hnone : (table.take 13).find? (fun m => m.characters.isPrefixOf [c]) = none := by
        rw [List.find?_eq_none]
        intro m hm
        obtain ⟨a, b, hab⟩ := exists_pair hm
        simp [hab, List.isPrefixOf]
      rw [hnone, find?_singles]
      rfl
  | c :: d :: cs =>
      rw [find?_pairs, find?_singles]
      rfl

end Mark

end SharpMutants
