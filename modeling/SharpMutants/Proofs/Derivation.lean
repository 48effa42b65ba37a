import SharpMutants.Proofs.Grammar

/-!
# Derivations over tokens

`Derives s ts t` says that the tokens `ts` stand for the tree `t` under the symbol
`s`: they are the words of the phrase of `t` in order, the tokens of a child stand
in the place of the child, every node covers its tokens from the first to the
last, and the node's own token is where the phrase has it.

`Derives.conforms` forgets the places: a derived tree conforms to the grammar and
its yield is what the tokens are.  `Conforms.derives` puts them back: tokens that
spell the yield of a conforming tree derive a tree of the same shape.
-/

namespace SharpMutants

/-- Where the last of some tokens ends, if they follow a place. -/
def stopAfter (before : Nat) (ts : List Token) : Nat := ts.foldl (fun _ t => t.span.stop) before

@[simp] theorem stopAfter_nil (before : Nat) : stopAfter before [] = before := rfl

/-- The end of tokens is the end of the first, or after it that of the others. -/
@[simp] theorem stopAfter_cons (before : Nat) (t : Token) (ts : List Token) :
    stopAfter before (t :: ts) = stopAfter t.span.stop ts := rfl

/-- The end of tokens in a row is that of the second ones after the first. -/
theorem stopAfter_append (before : Nat) (ts us : List Token) :
    stopAfter before (ts ++ us) = stopAfter (stopAfter before ts) us := List.foldl_append

/-- The extent of some tokens, from the first to the last. -/
def hull : List Token → Span
  | [] => ⟨0, 0⟩
  | t :: ts => ⟨t.span.start, stopAfter t.span.stop ts⟩

/-- The tokens of a row of parts, with the node's own token among them and the trees that
stand for its children.  The children are related to their tokens by `R`. -/
inductive Row (R : Symbol → List Token → Tree → Prop) :
    List (Part Symbol) → List Token → Option Span → List Tree → Prop
  | nil : Row R [] [] none []
  | word {t : Token} {l : Lexeme} {ps : List (Part Symbol)} {ts : List Token}
      {own : Option Span} {cs : List Tree} (is : t.lexeme = l) (rest : Row R ps ts own cs) :
      Row R (.word l :: ps) (t :: ts) own cs
  | own {t : Token} {l : Lexeme} {ps : List (Part Symbol)} {ts : List Token}
      {own : Option Span} {cs : List Tree} (is : t.lexeme = l) (rest : Row R ps ts own cs) :
      Row R (.own l :: ps) (t :: ts) (some t.span) cs
  | child {s : Symbol} {ps : List (Part Symbol)} {ts us : List Token} {own : Option Span}
      {c : Tree} {cs : List Tree} (here : R s ts c) (rest : Row R ps us own cs) :
      Row R (.child s :: ps) (ts ++ us) own (c :: cs)

/-- Tokens stand for a tree under a symbol. -/
inductive Derives : Symbol → List Token → Tree → Prop
  | node {s : Symbol} {k : Kind} {ss : List Symbol} {ts : List Token} {own : Option Span}
      {cs : List Tree} (rule : Rule s k ss) (row : Row Derives (k.phrase ss) ts own cs) :
      Derives s ts (.node ⟨k, hull ts, own, false, none⟩ cs)

namespace Row

variable {R S : Symbol → List Token → Tree → Prop} {ps qs : List (Part Symbol)}
  {ts us : List Token} {own own' : Option Span} {cs ds : List Tree}

/-- A row over one relation is one over a weaker relation. -/
theorem mono (h : ∀ s ts t, R s ts t → S s ts t) (row : Row R ps ts own cs) :
    Row S ps ts own cs := by
  induction row with
  | nil => exact .nil
  | word is _ ih => exact .word is ih
  | own is _ ih => exact .own is ih
  | child here _ ih => exact .child (h _ _ _ here) ih

/-- Rows stand one after another; the own token is the first one. -/
theorem append (left : Row R ps ts own cs) (right : Row R qs us own' ds) :
    Row R (ps ++ qs) (ts ++ us) (own.or own') (cs ++ ds) := by
  induction left with
  | nil => simpa using right
  | word is _ ih => exact .word is ih
  | own is _ ih => exact .own is ih
  | child here _ ih =>
      rw [List.append_assoc]
      exact .child here ih

/-- A row without parts has no token and no child. -/
theorem nil_inv (row : Row R [] ts own cs) : ts = [] ∧ own = none ∧ cs = [] := by
  cases row
  exact ⟨rfl, rfl, rfl⟩

/-- A row that begins with a word begins with a token that spells it. -/
theorem word_inv {l : Lexeme} (row : Row R (.word l :: ps) ts own cs) :
    ∃ t us, ts = t :: us ∧ t.lexeme = l ∧ Row R ps us own cs := by
  cases row with
  | word is rest => exact ⟨_, _, rfl, is, rest⟩

/-- A row that begins with the node's own token begins with a token that spells it. -/
theorem own_inv {l : Lexeme} (row : Row R (.own l :: ps) ts own cs) :
    ∃ t us own', ts = t :: us ∧ own = some t.span ∧ t.lexeme = l ∧ Row R ps us own' cs := by
  cases row with
  | own is rest => exact ⟨_, _, _, rfl, rfl, is, rest⟩

/-- A row that begins with a child begins with the tokens of the child. -/
theorem child_inv {s : Symbol} (row : Row R (.child s :: ps) ts own cs) :
    ∃ us vs c ds, ts = us ++ vs ∧ cs = c :: ds ∧ R s us c ∧ Row R ps vs own ds := by
  cases row with
  | child here rest => exact ⟨_, _, _, _, rfl, rfl, here, rest⟩

/-- A row of parts of two lists is a row of the first and one of the second. -/
theorem append_inv (row : Row R (ps ++ qs) ts own cs) :
    ∃ ts₁ ts₂ own₁ own₂ cs₁ cs₂, ts = ts₁ ++ ts₂ ∧ own = own₁.or own₂ ∧ cs = cs₁ ++ cs₂ ∧
      Row R ps ts₁ own₁ cs₁ ∧ Row R qs ts₂ own₂ cs₂ := by
  induction ps generalizing ts own cs with
  | nil => exact ⟨[], ts, none, own, [], cs, rfl, rfl, rfl, .nil, row⟩
  | cons p ps ih =>
      cases row with
      | word is rest =>
          obtain ⟨ts₁, ts₂, own₁, own₂, cs₁, cs₂, rfl, rfl, rfl, left, right⟩ := ih rest
          exact ⟨_, ts₂, own₁, own₂, cs₁, cs₂, rfl, rfl, rfl, .word is left, right⟩
      | own is rest =>
          obtain ⟨ts₁, ts₂, own₁, own₂, cs₁, cs₂, rfl, rfl, rfl, left, right⟩ := ih rest
          exact ⟨_, ts₂, _, own₂, cs₁, cs₂, rfl, rfl, rfl, .own is left, right⟩
      | child here rest =>
          obtain ⟨ts₁, ts₂, own₁, own₂, cs₁, cs₂, rfl, rfl, rfl, left, right⟩ := ih rest
          exact ⟨_, ts₂, own₁, own₂, _, cs₂, by rw [List.append_assoc], rfl, rfl,
            .child here left, right⟩

/-- A row of words is the tokens that spell them. -/
theorem words_inv {ls : List Lexeme} (row : Row R (ls.map Part.word) ts own cs) :
    ts.map Token.lexeme = ls ∧ own = none ∧ cs = [] := by
  induction ls generalizing ts own cs with
  | nil =>
      obtain ⟨rfl, rfl, rfl⟩ := row.nil_inv
      exact ⟨rfl, rfl, rfl⟩
  | cons l ls ih =>
      obtain ⟨t, us, rfl, rfl, rest⟩ := row.word_inv
      obtain ⟨rfl, rfl, rfl⟩ := ih rest
      exact ⟨rfl, rfl, rfl⟩

/-- Every word of a row is the lexeme of one of its tokens. -/
theorem exists_token (row : Row R ps ts own cs) {l : Lexeme} (hl : l ∈ Part.lexemes ps) :
    ∃ t ∈ ts, t.lexeme = l := by
  induction row with
  | nil => simp [Part.lexemes] at hl
  | @word t m _ _ _ _ is _ ih =>
      rcases List.mem_cons.mp hl with rfl | hl
      · exact ⟨t, List.mem_cons_self, is⟩
      · obtain ⟨u, hu, rfl⟩ := ih hl
        exact ⟨u, List.mem_cons_of_mem t hu, rfl⟩
  | @own t m _ _ _ _ is _ ih =>
      rcases List.mem_cons.mp hl with rfl | hl
      · exact ⟨t, List.mem_cons_self, is⟩
      · obtain ⟨u, hu, rfl⟩ := ih hl
        exact ⟨u, List.mem_cons_of_mem t hu, rfl⟩
  | @child _ _ ts _ _ _ _ _ _ ih =>
      obtain ⟨u, hu, rfl⟩ := ih hl
      exact ⟨u, List.mem_append_right ts hu, rfl⟩

/-- The trees of a row stand for tokens of the row under the symbols of its parts. -/
theorem forall₂ (row : Row R ps ts own cs) :
    List.Forall₂ (fun s c => ∃ us, us ⊆ ts ∧ R s us c) (Part.children ps) cs := by
  induction row with
  | nil => exact .nil
  | @word t _ _ ts _ _ _ _ ih =>
      exact ih.imp fun s c ⟨us, sub, here⟩ => ⟨us, List.subset_cons_of_subset t sub, here⟩
  | @own t _ _ ts _ _ _ _ ih =>
      exact ih.imp fun s c ⟨us, sub, here⟩ => ⟨us, List.subset_cons_of_subset t sub, here⟩
  | @child _ _ ts us _ _ _ here _ ih =>
      exact .cons ⟨ts, List.subset_append_left ts us, here⟩
        (ih.imp fun s c ⟨vs, sub, here⟩ => ⟨vs, List.subset_append_of_subset_right ts sub, here⟩)

/-- The words of a row, with the yields of its trees in the places for children, are the
lexemes of its tokens. -/
theorem words_eq {qs : List (Part (Symbol × Tree))}
    (row : Row R (qs.map (Part.map Prod.fst)) ts own cs)
    (trees : (Part.children qs).map Prod.snd = cs)
    (yields : ∀ s ts t, R s ts t → t.yield = ts.map Token.lexeme) :
    Tree.words (qs.map (Part.map fun q => q.2.yield)) = ts.map Token.lexeme := by
  induction qs generalizing ts own cs with
  | nil =>
      cases row
      rfl
  | cons q qs ih =>
      cases q with
      | word l =>
          cases row with
          | word is rest => simpa [Tree.words, is] using ih rest trees
      | own l =>
          cases row with
          | own is rest => simpa [Tree.words, is] using ih rest trees
      | child q =>
          cases row with
          | child here rest =>
              obtain ⟨rfl, others⟩ := List.cons.inj trees
              simpa [Tree.words, yields _ _ _ here] using ih rest others

/-- Tokens that spell the words of some parts, with the yields of trees in the places for
children, stand in a row with trees of the same shapes. -/
theorem of_words {qs : List (Part (Symbol × Tree))}
    (stand : ∀ q ∈ Part.children qs, ∀ ts : List Token, ts.map Token.lexeme = q.2.yield →
      ∃ t, R q.1 ts t ∧ t.shape = q.2.shape)
    (spells : ts.map Token.lexeme = Tree.words (qs.map (Part.map fun q => q.2.yield))) :
    ∃ own cs, Row R (qs.map (Part.map Prod.fst)) ts own cs ∧
      cs.map Tree.shape = (Part.children qs).map fun q => q.2.shape := by
  induction qs generalizing ts with
  | nil =>
      obtain rfl : ts = [] := by simpa [Tree.words] using spells
      exact ⟨none, [], .nil, rfl⟩
  | cons q qs ih =>
      cases q with
      | word l =>
          obtain ⟨t, us, rfl, is, spells⟩ := List.map_eq_cons_iff.mp spells
          obtain ⟨own, cs, row, shapes⟩ := ih stand spells
          exact ⟨own, cs, .word is row, shapes⟩
      | own l =>
          obtain ⟨t, us, rfl, is, spells⟩ := List.map_eq_cons_iff.mp spells
          obtain ⟨_, cs, row, shapes⟩ := ih stand spells
          exact ⟨some t.span, cs, .own is row, shapes⟩
      | child q =>
          obtain ⟨us, vs, rfl, here, spells⟩ := List.map_eq_append_iff.mp spells
          obtain ⟨c, derived, same⟩ := stand q List.mem_cons_self us here
          obtain ⟨own, cs, row, shapes⟩ :=
            ih (fun q hq => stand q (List.mem_cons_of_mem _ hq)) spells
          exact ⟨own, c :: cs, .child derived row, by
            rw [List.map_cons, shapes, same, Part.children, List.map_cons]⟩

end Row

/-- Induction over derivations: the children of a node have the property with their tokens. -/
theorem Derives.inductionOn {motive : Symbol → List Token → Tree → Prop}
    (node : ∀ {s k ss ts own cs}, Rule s k ss →
      Row (fun s ts t => Derives s ts t ∧ motive s ts t) (k.phrase ss) ts own cs →
      motive s ts (.node ⟨k, hull ts, own, false, none⟩ cs))
    {s : Symbol} {ts : List Token} {t : Tree} (h : Derives s ts t) : motive s ts t := by
  refine Derives.rec (motive_1 := fun s ts t _ => motive s ts t)
    (motive_2 := fun ps ts own cs _ =>
      Row (fun s ts t => Derives s ts t ∧ motive s ts t) ps ts own cs)
    ?node ?nil ?word ?own ?child h
  case node => exact fun rule _ ih => node rule ih
  case nil => exact .nil
  case word => exact fun is _ ih => .word is ih
  case own => exact fun is _ ih => .own is ih
  case child => exact fun here _ ihHere ih => .child ⟨here, ihHere⟩ ih

/-- Induction over conforming trees: the children of a node have the property. -/
theorem Conforms.inductionOn {motive : Symbol → Tree → Prop}
    (node : ∀ {s d ss cs}, Rule s d.kind ss → Part.Spelled (d.kind.phrase ss) →
      List.Forall₂ (fun s c => Conforms s c ∧ motive s c) ss cs → motive s (.node d cs))
    {s : Symbol} {t : Tree} (h : Conforms s t) : motive s t := by
  refine Conforms.rec (motive_1 := fun s t _ => motive s t)
    (motive_2 := fun ss cs _ => List.Forall₂ (fun s c => Conforms s c ∧ motive s c) ss cs)
    ?node ?nil ?cons h
  case node => exact fun rule spelled _ ih => node rule spelled ih
  case nil => exact .nil
  case cons => exact fun here _ ihHere ih => .cons ⟨here, ihHere⟩ ih

/-- What is of one symbol over and over is all of that symbol. -/
theorem forall_mem_of_replicate {R : Symbol → Tree → Prop} {n : Nat} {s : Symbol}
    {cs : List Tree} (h : List.Forall₂ R (.replicate n s) cs) : ∀ c ∈ cs, R s c := by
  induction n generalizing cs with
  | zero =>
      rw [List.replicate_zero, List.forall₂_nil_left_iff] at h
      rw [h]
      nofun
  | succ n ih =>
      rw [List.replicate_succ] at h
      cases h with
      | cons here rest => exact List.forall_mem_cons.mpr ⟨here, ih rest⟩

namespace Tree

theorem yields_eq (cs : List Tree) : yields cs = cs.map yield := by
  induction cs with
  | nil => rfl
  | cons c cs ih => rw [yields, ih, List.map_cons]

/-- The yield of a node is its phrase with the yields of its children. -/
theorem yield_node (d : Node) (cs : List Tree) :
    (node d cs).yield = words (d.kind.phrase (cs.map yield)) := by
  rw [yield, yields_eq]

theorem shapeOf_eq (cs : List Tree) : shapeOf cs = (cs.map shape).flatten := by
  induction cs with
  | nil => rw [shapeOf_nil, List.map_nil, List.flatten_nil]
  | cons c cs ih => rw [shapeOf_cons, ih, List.map_cons, List.flatten_cons]

end Tree

/-- The children of an instance of a rule are what its phrase has places for. -/
theorem Rule.children {s : Symbol} {k : Kind} {ss : List Symbol} (rule : Rule s k ss)
    {α : Type} {cs : List α} (same : cs.length = ss.length) :
    Part.children (k.phrase cs) = cs := by
  cases rule with
  | usingDirective | parameter | emptyStatement | identifier | literal | uninitialized =>
      obtain rfl : cs = [] := by simpa using same
      simp [Kind.phrase, Part.children, Part.children_append]
  | initialized | elseClause | prefixUnary | postfixUnary =>
      obtain ⟨a, rfl⟩ := List.length_eq_one_iff.mp same
      rfl
  | assignment | binary | ifThen | whileStatement =>
      obtain ⟨a, b, rfl⟩ := List.length_eq_two.mp same
      rfl
  | ifElse =>
      obtain ⟨a, b, c, rfl⟩ := List.length_eq_three.mp same
      rfl
  | forDeclaration | forExpression =>
      obtain ⟨a, ds, rfl, hds⟩ := List.length_eq_succ_iff.mp same
      obtain ⟨b, c, d, rfl⟩ := List.length_eq_three.mp hds
      rfl
  | methodDecl name ms type parameters =>
      rcases List.eq_nil_or_concat cs with rfl | ⟨ds, b, rfl⟩
      · simp at same
      · simp [Kind.phrase, Part.children, Part.children_append]
  | _ => simp [Kind.phrase, Part.children, Part.children_append]

/-- Every construct but a whole source has a word of its own. -/
theorem Rule.exists_word {s : Symbol} {k : Kind} {ss : List Symbol} (rule : Rule s k ss)
    (part : s ≠ .unit) : Part.lexemes (k.phrase ss) ≠ [] := by
  cases rule <;>
    simp_all [Kind.phrase, Part.lexemes, Part.lexemes_append, Part.braced, List.replicate_succ]

section Places

variable {s : Symbol} {k : Kind} {ss : List Symbol} {ts : List Token} {own : Option Span}
  {cs : List Tree} {t : Tree} {R : Symbol → List Token → Tree → Prop}

/-- The trees of a row of an instance of a rule, each with its symbol. -/
theorem Rule.forall₂ (rule : Rule s k ss) (row : Row R (k.phrase ss) ts own cs) :
    List.Forall₂ (fun s c => ∃ us, us ⊆ ts ∧ R s us c) ss cs := by
  have := row.forall₂
  rwa [rule.children rfl] at this

/-- The children of an instance of a rule, each with its symbol. -/
theorem Rule.exists_pairs (rule : Rule s k ss) (same : ss.length = cs.length) :
    ∃ qs : List (Symbol × Tree), qs.map Prod.fst = ss ∧ qs.map Prod.snd = cs ∧
      Part.children (k.phrase qs) = qs :=
  ⟨ss.zip cs, List.map_fst_zip (Nat.le_of_eq same), List.map_snd_zip (Nat.le_of_eq same.symm),
    rule.children (by rw [List.length_zip, same, Nat.min_self])⟩

/-- The yield of a node whose tokens stand in a row with its children. -/
theorem Rule.yield_eq (rule : Rule s k ss) (row : Row R (k.phrase ss) ts own cs)
    (yields : ∀ s ts t, R s ts t → t.yield = ts.map Token.lexeme) {d : Node} (hd : d.kind = k) :
    (Tree.node d cs).yield = ts.map Token.lexeme := by
  obtain ⟨qs, rfl, rfl, pairs⟩ := rule.exists_pairs (rule.forall₂ row).length_eq
  rw [Kind.phrase_map] at row
  rw [Tree.yield_node, hd, List.map_map, Kind.phrase_map]
  exact row.words_eq (by rw [pairs]) yields

/-- Only a whole source may be without tokens. -/
theorem Derives.ne_nil (h : Derives s ts t) (part : s ≠ .unit) : ts ≠ [] := by
  cases h with
  | node rule row =>
      obtain ⟨l, hl⟩ := List.exists_mem_of_ne_nil _ (rule.exists_word part)
      obtain ⟨u, hu, -⟩ := row.exists_token hl
      exact List.ne_nil_of_mem hu

/-- A derived tree yields what its tokens are. -/
theorem Derives.yield_eq (h : Derives s ts t) : t.yield = ts.map Token.lexeme := by
  refine h.inductionOn (motive := fun _ ts t => t.yield = ts.map Token.lexeme) ?_
  intro s k ss ts own cs rule row
  exact rule.yield_eq row (fun _ _ _ => And.right) rfl

/-- A node conforms if its tokens are well spelled and stand in a row with conforming trees. -/
theorem Rule.conforms {d : Node} (rule : Rule s d.kind ss) (row : Row R (d.kind.phrase ss) ts own cs)
    (spelled : ∀ u ∈ ts, u.lexeme.WellSpelled)
    (children : ∀ s us c, R s us c → (∀ u ∈ us, u.lexeme.WellSpelled) → Conforms s c) :
    Conforms s (.node d cs) := by
  refine .node rule ?_ ?_
  · intro l hl
    obtain ⟨u, hu, rfl⟩ := row.exists_token hl
    exact spelled u hu
  · exact (rule.forall₂ row).imp fun s c ⟨us, sub, here⟩ =>
      children s us c here fun u hu => spelled u (sub hu)

/-- **A derived tree conforms to the grammar** if its tokens are well spelled. -/
theorem Derives.conforms (h : Derives s ts t) (spelled : ∀ u ∈ ts, u.lexeme.WellSpelled) :
    Conforms s t := by
  revert spelled
  refine h.inductionOn
    (motive := fun s ts t => (∀ u ∈ ts, u.lexeme.WellSpelled) → Conforms s t) ?_
  intro s k ss ts own cs rule row spelled
  exact rule.conforms (d := ⟨k, hull ts, own, false, none⟩) row spelled fun _ _ _ => And.right

/-- Tokens that spell the yield of a conforming node stand in a row, if those that spell the
yields of its children derive trees of the same shapes. -/
theorem Rule.exists_row (rule : Rule s k ss) {d : Node} (hd : d.kind = k)
    (children : List.Forall₂ (fun s c => ∀ us : List Token, us.map Token.lexeme = c.yield →
      ∃ t, R s us t ∧ t.shape = c.shape) ss cs)
    (spells : ts.map Token.lexeme = (Tree.node d cs).yield) :
    ∃ own cs', Row R (k.phrase ss) ts own cs' ∧ cs'.map Tree.shape = cs.map Tree.shape := by
  obtain ⟨qs, rfl, rfl, pairs⟩ := rule.exists_pairs children.length_eq
  rw [Tree.yield_node, hd, List.map_map, Kind.phrase_map] at spells
  rw [List.forall₂_map_left_iff, List.forall₂_map_right_iff, List.forall₂_same] at children
  obtain ⟨own, cs', row, shapes⟩ := Row.of_words (R := R) (by rwa [pairs]) spells
  rw [← Kind.phrase_map] at row
  refine ⟨own, cs', row, ?_⟩
  rw [shapes, pairs, List.map_map]
  rfl

/-- **Tokens that spell the yield of a conforming tree** derive a tree of the same shape. -/
theorem Conforms.derives (h : Conforms s t) (spells : ts.map Token.lexeme = t.yield) :
    ∃ t', Derives s ts t' ∧ t'.shape = t.shape := by
  refine h.inductionOn (motive := fun s t => ∀ ts : List Token, ts.map Token.lexeme = t.yield →
    ∃ t', Derives s ts t' ∧ t'.shape = t.shape) ?_ ts spells
  clear h spells
  intro s d ss cs rule _ children ts spells
  obtain ⟨own, cs', row, shapes⟩ :=
    rule.exists_row rfl (children.imp fun _ _ => And.right) spells
  refine ⟨_, .node rule row, ?_⟩
  rw [Tree.shape_node, Tree.shape_node, Tree.shapeOf_eq, Tree.shapeOf_eq, shapes,
    ← List.length_map (f := Tree.shape), shapes, List.length_map]

end Places

end SharpMutants
