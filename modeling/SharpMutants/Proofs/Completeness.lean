import SharpMutants.Proofs.Completeness.Declarations
import SharpMutants.Proofs.Soundness

/-!
# Every program of the grammar is read as its tree

A source whose tokens spell the yield of a conforming tree is read, and what it is
read as has the shape of the tree.  So a program has one tree: all conforming trees
whose yield it spells have the same shape.
-/

namespace SharpMutants

/-- A source that spells the yield of a conforming tree is read as a tree of the same shape. -/
theorem exists_parse_of_yield {source : Text} {tokens : List Token} {t : Tree}
    (htokens : tokenize source = .ok tokens) (ht : t.Grammatical)
    (hyield : tokens.map Token.lexeme = t.yield ++ [Lexeme.endOfInput]) :
    ∃ d, parse source = .ok d ∧ d.source = .ofText source ∧ d.tree.shape = t.shape := by
  have hscans := tokenize_eq_ok.mp htokens
  obtain ⟨ts, e, rfl, hend, hspelled⟩ := hscans.exists_end
  rw [List.map_append] at hyield
  obtain ⟨hwords, -⟩ := List.append_inj' hyield rfl
  obtain ⟨_, ⟨rule, row⟩, hshape⟩ := ht.derives hwords
  have took : Took ⟨0, ts ++ [e]⟩ ts ⟨stopAfter 0 ts, [e]⟩ :=
    ⟨rfl, rfl, fun t ht => (hspelled t ht).ne_end⟩
  have hnext : e.kind = .endOfInput := congrArg Lexeme.kind hend
  cases rule with
  | compilationUnit directives declarations =>
      have hread := Parser.compilationUnit_answers (Text.width source)
        (n := Parser.depthPerToken * ((ts ++ [e]).length + 1))
        (.compilationUnit directives declarations) row hscans.orderly took hnext (by
          rw [Parser.depthPerToken, List.length_append, List.length_singleton]
          omega)
      refine ⟨⟨.ofText source, _⟩, parse_eq_ok.mpr ⟨rfl, _, _, htokens, hread⟩, rfl, ?_⟩
      rwa [Tree.shape_node] at hshape ⊢

/-- **Every program of the grammar is accepted** and has one tree: a source whose tokens are the
yield of a conforming tree, with the end of the input after it, is read as that tree, and so is
every other conforming tree with that yield. -/
theorem parse_complete {source : Text} {tokens : List Token} {t : Tree}
    (htokens : tokenize source = .ok tokens) (ht : t.Grammatical)
    (hyield : tokens.map Token.lexeme = t.yield ++ [.endOfInput]) :
    ∃ d, parse source = .ok d ∧ d.tree.sameShape t ∧
      ∀ u : Tree, u.Grammatical → tokens.map Token.lexeme = u.yield ++ [.endOfInput] →
        d.tree.sameShape u := by
  obtain ⟨d, hparse, -, hshape⟩ := exists_parse_of_yield htokens ht hyield
  refine ⟨d, hparse, by simp [Tree.sameShape, hshape], fun u hu hother => ?_⟩
  obtain ⟨e, hparse', -, hshape'⟩ := exists_parse_of_yield htokens hu hother
  obtain rfl : d = e := Except.ok.inj (hparse.symm.trans hparse')
  simp [Tree.sameShape, hshape']

/-- A class in which an `else` and operators of many levels meet. -/
def denseClass : Text :=
  ("class A \x7b int f = 1; bool M(int a, bool b) \x7b if (b) if (a > 0) " ++
    "return a - 1 - 2 * a == 0 || !b && true; else a = -a--; return (a < 1); \x7d \x7d").toList

/-- The same class in another layout, with comments. -/
def denseClassAnew : Text :=
  ("class A\x7bint/**/f=1;bool M(int a,bool b)\x7bif(b)if(a>0)// no\n" ++
    "return a-1-2*a==0||!b&&true;else a=-a--;return(a<1);\x7d\x7d").toList

/-- What is read from one layout is the tree that the tokens of the other layout yield. -/
theorem parse_complete_nested :
    ∃ e tokens d, parse denseClass = .ok e ∧ e.tree.Grammatical ∧
      tokenize denseClassAnew = .ok tokens ∧
      tokens.map Token.lexeme = e.tree.yield ++ [.endOfInput] ∧ parse denseClassAnew = .ok d ∧
      d.tree.sameShape e.tree := by
  have hread : (parse denseClass).toOption.any (fun _ =>
      (tokenize denseClass).toOption.any fun ts => (tokenize denseClassAnew).toOption.any fun us =>
        ts.map Token.lexeme == us.map Token.lexeme) = true := by
    decide +kernel
  obtain ⟨e, he, hfacts⟩ := exists_document_of_any hread
  obtain ⟨ts, hts, hfacts⟩ := exists_ok_of_any hfacts
  obtain ⟨us, hus, hsame⟩ := exists_ok_of_any hfacts
  obtain ⟨tokens, stop, htokens, hend, -, hgrammatical, hyield⟩ := conforms_of_parse he
  obtain rfl : tokens ++ [stop] = ts := Except.ok.inj (htokens.symm.trans hts)
  have hlexemes : us.map Token.lexeme = e.tree.yield ++ [.endOfInput] := by
    rw [← eq_of_beq hsame, List.map_append, List.map_singleton, hyield, hend]
  obtain ⟨d, hd, hshape, -⟩ := parse_complete hus hgrammatical hlexemes
  exact ⟨e, us, d, he, hgrammatical, hus, hlexemes, hd, hshape⟩

end SharpMutants
