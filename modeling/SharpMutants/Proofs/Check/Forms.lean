import SharpMutants.Proofs.Derivation

/-!
# Forms of statements

A statement that conforms to the grammar has one of a few forms, with expressions,
declarations and statements for its parts, and so has the body of a method: `Conforms.formed`.
-/

namespace SharpMutants

namespace Check

/-- The statements of the language with their parts. -/
inductive Statement : Tree → Prop
  | block {d : Node} {cs : List Tree} (hkind : d.kind = .block) (parts : ∀ c ∈ cs, Statement c) :
      Statement (.node d cs)
  | declaration {d : Node} {t : Tree} (hkind : d.kind = .localDeclaration)
      (part : Conforms .variableDeclaration t) : Statement (.node d [t])
  | expression {d : Node} {t : Tree} (hkind : d.kind = .expressionStatement)
      (part : Conforms (.expression 0) t) : Statement (.node d [t])
  | empty {d : Node} (hkind : d.kind = .emptyStatement) : Statement (.node d [])
  | returnNothing {d : Node} (hkind : d.kind = .returnStatement) : Statement (.node d [])
  | returnValue {d : Node} {t : Tree} (hkind : d.kind = .returnStatement)
      (part : Conforms (.expression 0) t) : Statement (.node d [t])
  | ifThen {d : Node} {cond body : Tree} (hkind : d.kind = .ifStatement)
      (test : Conforms (.expression 0) cond) (branch : Statement body) :
      Statement (.node d [cond, body])
  | ifElse {d e : Node} {cond body other : Tree} (hkind : d.kind = .ifStatement)
      (helse : e.kind = .elseClause) (test : Conforms (.expression 0) cond) (branch : Statement body)
      (otherwise : Statement other) : Statement (.node d [cond, body, .node e [other]])
  | whileLoop {d : Node} {cond body : Tree} (hkind : d.kind = .whileStatement)
      (test : Conforms (.expression 0) cond) (round : Statement body) :
      Statement (.node d [cond, body])
  | forLoop {d : Node} {init cond step body : Tree} (hkind : d.kind = .forStatement)
      (start : Conforms .variableDeclaration init ∨ Conforms (.expression 0) init)
      (test : Conforms (.expression 0) cond) (next : Conforms (.expression 0) step)
      (round : Statement body) : Statement (.node d [init, cond, step, body])

/-- What a tree of a symbol is in terms of statements. -/
def Formed : Symbol → Tree → Prop
  | .statement _, t | .body, t => Statement t
  | .elseClause _, t => ∃ e other, t = .node e [other] ∧ e.kind = .elseClause ∧ Statement other
  | _, _ => True

end Check

open Check in
/-- **Conforming trees have the forms** that a check reads. -/
theorem Conforms.formed {s : Symbol} {t : Tree} (h : Conforms s t) : Formed s t := by
  refine h.inductionOn (motive := Formed) ?_
  intro s d ss cs rule _ children
  generalize hkind : d.kind = k at rule
  cases rule with
  | body n => exact .block hkind fun c hc => (forall_mem_of_replicate children c hc).2
  | block closed n => exact .block hkind fun c hc => (forall_mem_of_replicate children c hc).2
  | localDeclaration closed =>
      match cs, children with
      | [_], .cons part .nil => exact .declaration hkind part.1
  | expressionStatement closed =>
      match cs, children with
      | [_], .cons part .nil => exact .expression hkind part.1
  | emptyStatement closed =>
      match cs, children with
      | [], .nil => exact .empty hkind
  | returnNothing closed =>
      match cs, children with
      | [], .nil => exact .returnNothing hkind
  | returnValue closed =>
      match cs, children with
      | [_], .cons part .nil => exact .returnValue hkind part.1
  | ifThen =>
      match cs, children with
      | [_, _], .cons test (.cons branch .nil) => exact .ifThen hkind test.1 branch.2
  | ifElse closed =>
      match cs, children with
      | [_, _, _], .cons test (.cons branch (.cons otherwise .nil)) =>
        obtain ⟨e, other, rfl, helse, hother⟩ := otherwise.2
        exact .ifElse hkind helse test.1 branch.2 hother
  | elseClause closed =>
      match cs, children with
      | [other], .cons part .nil => exact ⟨d, other, rfl, hkind, part.2⟩
  | whileStatement closed =>
      match cs, children with
      | [_, _], .cons test (.cons round .nil) => exact .whileLoop hkind test.1 round.2
  | forDeclaration closed =>
      match cs, children with
      | [_, _, _, _], .cons start (.cons test (.cons next (.cons round .nil))) =>
        exact .forLoop hkind (.inl start.1) test.1 next.1 round.2
  | forExpression closed =>
      match cs, children with
      | [_, _, _, _], .cons start (.cons test (.cons next (.cons round .nil))) =>
        exact .forLoop hkind (.inr start.1) test.1 next.1 round.2
  | _ => exact trivial

/-- The body of a method has one of the forms. -/
theorem Conforms.body {t : Tree} (h : Conforms .body t) : Check.Statement t := h.formed

/-- A declaration declares variables. -/
theorem Conforms.declaration {t : Tree} (h : Conforms .variableDeclaration t) :
    ∃ type, t.kind = .variableDeclaration type ∧
      ∀ c ∈ t.children, Conforms .variableDeclarator c := by
  cases h with
  | @node _ d ss cs rule _ children =>
      generalize hkind : d.kind = k at rule
      cases rule with
      | variableDeclaration _ more =>
          exact ⟨_, hkind, forall_mem_of_replicate children⟩

/-- A variable is declared with an initializer or without. -/
theorem Conforms.declarator {t : Tree} (h : Conforms .variableDeclarator t) :
    ∃ d name, d.kind = .variableDeclarator name ∧
      (t = .node d [] ∨ ∃ init, t = .node d [init] ∧ Conforms (.expression 0) init) := by
  cases h with
  | @node _ d ss cs rule _ children =>
      generalize hkind : d.kind = k at rule
      cases rule with
      | uninitialized name =>
          match cs, children with
          | [], .nil => exact ⟨d, name, hkind, .inl rfl⟩
      | initialized name =>
          match cs, children with
          | [init], .cons value .nil => exact ⟨d, name, hkind, .inr ⟨init, rfl, value⟩⟩

end SharpMutants
