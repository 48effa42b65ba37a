import SharpMutants.Proofs.Soundness.Declarations

/-!
# Documents conform to the grammar

`parse_sound` says that the tree of a document conforms to the grammar, that its
yield is what the tokens of the source are, and that every node of it is grouped as
the operators and the `else` demand.  The grouping holds of every conforming tree
(`Conforms.grouped`): it is what the levels of the expression symbols and the closed
statement symbols say about kinds.
-/

namespace SharpMutants

/-- A result that passes a test is none of failure. -/
theorem exists_ok_of_any {ε α : Type} {x : Except ε α} {test : α → Bool}
    (h : x.toOption.any test = true) : ∃ a, x = .ok a ∧ test a = true := by
  cases x with
  | error e => cases h
  | ok a => exact ⟨a, rfl, h⟩

/-- A source that is read as a document that passes a test. -/
theorem exists_document_of_any {source : Text} {test : Document → Bool}
    (h : (parse source).toOption.any test = true) : ∃ d, parse source = .ok d ∧ test d = true :=
  exists_ok_of_any h

namespace Tree

mutual

/-- The last statement within a statement is an `if` without `else`. -/
def endsOpen : Tree → Bool
  | node d cs =>
    match d.kind with
    | .ifStatement => cs.length == 2 || lastEndsOpen cs
    | .elseClause | .whileStatement | .forStatement => lastEndsOpen cs
    | _ => false

/-- The last statement within the last tree of a list is an `if` without `else`. -/
def lastEndsOpen : List Tree → Bool
  | [] => false
  | [c] => c.endsOpen
  | _ :: cs => lastEndsOpen cs

end

/-- An expression that binds at least as tightly as a level. -/
def IsOperand (level : Nat) (t : Tree) : Prop :=
  t.kind.isExpression = true ∧ level ≤ t.kind.precedence

/-- The children of a node bind as tightly as the node asks, and an `else` does not follow an
`if` without `else`. -/
def Grouped (t : Tree) : Prop :=
  match t.kind, t.children with
  | .assignment _, [target, value] => target.IsOperand 1 ∧ value.IsOperand 0
  | .assignment _, _ => False
  | .binary op, [left, right] =>
    left.IsOperand op.precedence ∧ right.IsOperand (op.precedence + 1)
  | .binary _, _ => False
  | .prefixUnary op, [operand] => operand.IsOperand (Kind.prefixUnary op).precedence
  | .prefixUnary _, _ => False
  | .postfixUnary op, [operand] => operand.IsOperand (Kind.postfixUnary op).precedence
  | .postfixUnary _, _ => False
  | .ifStatement, [_, branch, _] => branch.endsOpen = false
  | _, _ => True

/-- The subtrees of trees in a row are those of each. -/
theorem mem_subtreesOf {u : Tree} {cs : List Tree} :
    u ∈ subtreesOf cs ↔ ∃ c ∈ cs, u ∈ c.subtrees := by
  induction cs with
  | nil => simp [subtreesOf_nil]
  | cons c cs ih => simp [subtreesOf_cons, ih]

end Tree

namespace Conforms

variable {s : Symbol} {t u : Tree}

/-- Every part of a conforming tree conforms. -/
theorem of_mem_subtrees (h : Conforms s t) (hu : u ∈ t.subtrees) : ∃ s', Conforms s' u := by
  refine h.inductionOn (motive := fun _ t => u ∈ t.subtrees → ∃ s', Conforms s' u) ?_ hu
  clear h hu
  intro s d ss cs rule spelled children hu
  rw [Tree.subtrees_node, List.mem_cons] at hu
  rcases hu with rfl | hu
  · exact ⟨s, .node rule spelled (children.imp fun _ _ => And.left)⟩
  · obtain ⟨c, hc, hu⟩ := Tree.mem_subtreesOf.mp hu
    obtain ⟨n, hn, rfl⟩ := List.getElem_of_mem hc
    have hchild := children.get (i := n) (by rw [children.length_eq]; exact hn) hn
    exact hchild.2 hu

/-- An expression symbol derives only expressions, as tight as its level. -/
theorem isOperand {level : Nat} (h : Conforms (.expression level) t) : t.IsOperand level := by
  obtain @⟨_, d, ss, cs, rule, -, -⟩ := h
  show d.kind.isExpression = true ∧ level ≤ d.kind.precedence
  generalize d.kind = k at rule ⊢
  cases rule with
  | assignment op => exact ⟨rfl, Nat.le_refl 0⟩
  | binary op reached => exact ⟨rfl, reached⟩
  | prefixUnary op reached => exact ⟨rfl, reached⟩
  | postfixUnary step reached => exact ⟨rfl, reached⟩
  | identifier name reached => exact ⟨rfl, reached⟩
  | literal value reached => exact ⟨rfl, reached⟩
  | parenthesized reached => exact ⟨rfl, reached⟩
  | invocation callee args reached => exact ⟨rfl, reached⟩

/-- The operands of a binary expression bind as tightly as its operator asks. -/
theorem exists_operands (h : Conforms s t) {op : BinaryOp} (hkind : t.kind = .binary op) :
    ∃ level left right, s = .expression level ∧ level ≤ op.precedence ∧ t.children = [left, right] ∧
      Conforms (.expression op.precedence) left ∧
        Conforms (.expression (op.precedence + 1)) right := by
  obtain @⟨_, d, ss, cs, rule, -, children⟩ := h
  rw [Tree.kind, Tree.root] at hkind
  rw [hkind] at rule
  cases rule with
  | binary _ reached =>
      obtain _ | ⟨hleft, _ | ⟨hright, _ | _⟩⟩ := children
      exact ⟨_, _, _, rfl, reached, rfl, hleft, hright⟩

/-- A closed statement does not end in an `if` without `else`. -/
theorem endsOpen_eq_false (h : Conforms (.statement true) t) : t.endsOpen = false := by
  refine h.inductionOn (motive := fun s t =>
    s = .statement true ∨ s = .elseClause true → t.endsOpen = false) ?_ (.inl rfl)
  clear h
  rintro s d ss cs rule - children hs
  rw [Tree.endsOpen]
  generalize d.kind = k at rule ⊢
  rcases hs with rfl | rfl
  · cases rule with
    | ifElse =>
        match cs, children with
        | [cond, body, other], .cons _ (.cons _ (.cons hother .nil)) => exact hother.2 (.inr rfl)
    | whileStatement =>
        match cs, children with
        | [cond, body], .cons _ (.cons hbody .nil) => exact hbody.2 (.inl rfl)
    | forDeclaration =>
        match cs, children with
        | [init, cond, step, body], .cons _ (.cons _ (.cons _ (.cons hbody .nil))) =>
          exact hbody.2 (.inl rfl)
    | forExpression =>
        match cs, children with
        | [init, cond, step, body], .cons _ (.cons _ (.cons _ (.cons hbody .nil))) =>
          exact hbody.2 (.inl rfl)
    | _ => rfl
  · cases rule with
    | elseClause =>
        match cs, children with
        | [body], .cons hbody .nil => exact hbody.2 (.inl rfl)

/-- **Conforming trees are grouped** as operators and branches demand. -/
theorem grouped (h : Conforms s t) : t.Grouped := by
  obtain @⟨_, d, ss, cs, rule, -, children⟩ := h
  rw [Tree.Grouped, Tree.kind, Tree.root, Tree.children]
  generalize d.kind = k at rule ⊢
  cases rule with
  | assignment op =>
      obtain _ | ⟨htarget, _ | ⟨hvalue, _ | _⟩⟩ := children
      exact ⟨htarget.isOperand, hvalue.isOperand⟩
  | binary op reached =>
      obtain _ | ⟨hleft, _ | ⟨hright, _ | _⟩⟩ := children
      exact ⟨hleft.isOperand, hright.isOperand⟩
  | prefixUnary op reached =>
      obtain _ | ⟨hoperand, _ | _⟩ := children
      exact hoperand.isOperand
  | postfixUnary step reached =>
      obtain _ | ⟨hoperand, _ | _⟩ := children
      exact hoperand.isOperand
  | ifThen =>
      obtain _ | ⟨hcond, _ | ⟨hbody, _ | _⟩⟩ := children
      trivial
  | ifElse closed =>
      obtain _ | ⟨hcond, _ | ⟨hbody, _ | ⟨hother, _ | _⟩⟩⟩ := children
      exact hbody.endsOpen_eq_false
  | _ => trivial

end Conforms

/-- **The tree of a document** conforms to the grammar, yields the tokens of the source without
the end of the input, and is grouped as operators and branches demand. -/
theorem parse_sound {source : Text} {d : Document} (h : parse source = .ok d) :
    d.tree.Grammatical ∧
      (∃ tokens e, tokenize source = .ok (tokens ++ [e]) ∧ e.lexeme = .endOfInput ∧
        (∀ t ∈ tokens, t.kind ≠ .endOfInput) ∧ d.tree.yield = tokens.map Token.lexeme) ∧
      ∀ t ∈ d.tree.subtrees, t.Grouped := by
  obtain ⟨tokens, e, htokens, hend, hspelled, hconforms, hyield⟩ := conforms_of_parse h
  refine ⟨hconforms, ⟨tokens, e, htokens, hend, fun t ht => (hspelled t ht).ne_end, hyield⟩, ?_⟩
  intro t ht
  obtain ⟨s, hs⟩ := hconforms.of_mem_subtrees ht
  exact hs.grouped

/-- A source in which an `else` and operators of many levels meet. -/
theorem parse_sound_nested :
    ∃ d, parse "class A \x7b void M() \x7b if (a) if (b) x = y = 1 - 2 * -z++; else ; \x7d \x7d".toList
      = .ok d ∧ d.tree.Grammatical ∧ ∀ t ∈ d.tree.subtrees, t.Grouped := by
  have hread : (parse
      "class A \x7b void M() \x7b if (a) if (b) x = y = 1 - 2 * -z++; else ; \x7d \x7d".toList
        ).toOption.any (fun _ => true) = true := by
    decide +kernel
  obtain ⟨d, hd, -⟩ := exists_document_of_any hread
  obtain ⟨hgrammatical, -, hgrouped⟩ := parse_sound hd
  exact ⟨d, hd, hgrammatical, hgrouped⟩

end SharpMutants
