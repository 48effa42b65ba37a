import SharpMutants.Proofs.Check.Runs
import SharpMutants.Proofs.Dataflow.Indexes

/-!
# Executions and what they read and write

An execution of a body is a row of steps, each with its accesses: the identifiers that it
reads, and the variables that it writes by an assignment, a declarator, or `++` and `--`
(`Executes`).  Operands are evaluated from left to right, but the right operand of `&&` and
`||` may be skipped (`Evaluates`); a condition may turn out either way.

What a step reads is named at or below it, and what it writes is assigned there or is
declared by it (`Performs.within`).  The steps of an execution are a path in the graph of
the method (`Executes.leads`).
-/

namespace SharpMutants

namespace Trace

/-- What happens to a variable. -/
inductive Access where
  /-- The identifier at a node is read. -/
  | reads (node : Nat) (name : String)
  /-- A definition is made, by the assignment at a node or by a declarator of the step there. -/
  | defines (site : Nat) (name : String)
  /-- The value goes up or down by one. -/
  | counts (name : String)
deriving DecidableEq

/-- The variable that an access writes. -/
def Access.written? : Access → Option String
  | .reads _ _ => none
  | .defines _ name | .counts name => some name

/-- Accesses leave a variable as it is. -/
def Keeps (x : String) (acc : List Access) : Prop := ∀ e ∈ acc, e.written? ≠ some x

instance (x : String) (acc : List Access) : Decidable (Keeps x acc) :=
  inferInstanceAs (Decidable (∀ e ∈ acc, e.written? ≠ some x))

/-- The identifier that an expression at a node is, in parentheses or not. -/
def identifier? (id : Nat) : Tree → Option (Nat × String)
  | .node d cs =>
    match d.kind, cs with
    | .parenthesized, inner :: _ => identifier? (id + 1) inner
    | .identifier name, _ => some (id, name)
    | _, _ => none

mutual

/-- An expression at a node may be evaluated with these accesses. -/
inductive Evaluates : Nat → Tree → List Access → Prop
  | literal {id : Nat} {d : Node} {cs : List Tree} {value : Literal}
      (hkind : d.kind = .literal value) : Evaluates id (.node d cs) []
  | identifier {id : Nat} {d : Node} {cs : List Tree} {name : String}
      (hkind : d.kind = .identifier name) : Evaluates id (.node d cs) [.reads id name]
  | parenthesized {id : Nat} {d : Node} {inner : Tree} {acc : List Access}
      (hkind : d.kind = .parenthesized) (value : Evaluates (id + 1) inner acc) :
      Evaluates id (.node d [inner]) acc
  | binary {id : Nat} {d : Node} {op : BinaryOp} {l r : Tree} {acc acc' : List Access}
      (hkind : d.kind = .binary op) (left : Evaluates (id + 1) l acc)
      (right : Evaluates (id + 1 + l.size) r acc') : Evaluates id (.node d [l, r]) (acc ++ acc')
  | shortcut {id : Nat} {d : Node} {op : BinaryOp} {l r : Tree} {acc : List Access}
      (hkind : d.kind = .binary op) (hop : op = .and ∨ op = .or)
      (left : Evaluates (id + 1) l acc) : Evaluates id (.node d [l, r]) acc
  | step {id i : Nat} {d : Node} {op : UnaryOp} {operand : Tree} {name : String}
      (hkind : d.kind = .prefixUnary op ∨ d.kind = .postfixUnary op) (hop : op.isStep = true)
      (hname : identifier? (id + 1) operand = some (i, name)) :
      Evaluates id (.node d [operand]) [.reads i name, .counts name]
  | unary {id : Nat} {d : Node} {op : UnaryOp} {operand : Tree} {acc : List Access}
      (hkind : d.kind = .prefixUnary op ∨ d.kind = .postfixUnary op)
      (hop : op.isStep = false ∨ identifier? (id + 1) operand = none)
      (value : Evaluates (id + 1) operand acc) : Evaluates id (.node d [operand]) acc
  | simple {id i : Nat} {d : Node} {op : AssignOp} {target source : Tree} {name : String}
      {acc : List Access} (hkind : d.kind = .assignment op) (hop : op.binaryOp? = none)
      (hname : identifier? (id + 1) target = some (i, name))
      (value : Evaluates (id + 1 + target.size) source acc) :
      Evaluates id (.node d [target, source]) (acc ++ [.defines id name])
  | compound {id i : Nat} {d : Node} {op : AssignOp} {arithmetic : BinaryOp}
      {target source : Tree} {name : String} {acc : List Access}
      (hkind : d.kind = .assignment op) (hop : op.binaryOp? = some arithmetic)
      (hname : identifier? (id + 1) target = some (i, name))
      (value : Evaluates (id + 1 + target.size) source acc) :
      Evaluates id (.node d [target, source]) (.reads i name :: (acc ++ [.defines id name]))
  | elsewhere {id : Nat} {d : Node} {op : AssignOp} {target source : Tree}
      {acc acc' : List Access} (hkind : d.kind = .assignment op)
      (hname : identifier? (id + 1) target = none) (place : Evaluates (id + 1) target acc)
      (value : Evaluates (id + 1 + target.size) source acc') :
      Evaluates id (.node d [target, source]) (acc ++ acc')
  | invocation {id : Nat} {d : Node} {callee : String} {args : List Tree} {acc : List Access}
      (hkind : d.kind = .invocation callee)
      (values : EvaluatesAll (Tree.numberFrom (id + 1) args) acc) : Evaluates id (.node d args) acc

/-- Numbered expressions may be evaluated, one after another, with these accesses. -/
inductive EvaluatesAll : List (Nat × Tree) → List Access → Prop
  | nil : EvaluatesAll [] []
  | cons {id : Nat} {t : Tree} {ts : List (Nat × Tree)} {acc acc' : List Access}
      (here : Evaluates id t acc) (rest : EvaluatesAll ts acc') :
      EvaluatesAll ((id, t) :: ts) (acc ++ acc')

end

/-- The declarators of a step may be executed, one after another, with these accesses. -/
inductive Declares (step : Nat) : List (Nat × Tree) → List Access → Prop
  | nil : Declares step [] []
  | uninitialized {id : Nat} {d : Node} {name : String} {ds : List (Nat × Tree)}
      {acc : List Access} (hkind : d.kind = .variableDeclarator name) (rest : Declares step ds acc) :
      Declares step ((id, .node d []) :: ds) (.defines step name :: acc)
  | initialized {id : Nat} {d : Node} {name : String} {init : Tree} {ds : List (Nat × Tree)}
      {acc acc' : List Access} (hkind : d.kind = .variableDeclarator name)
      (value : Evaluates (id + 1) init acc) (rest : Declares step ds acc') :
      Declares step ((id, .node d [init]) :: ds) (acc ++ .defines step name :: acc')

/-- A step at a node may be executed with these accesses. -/
inductive Performs (step : Nat) : Tree → List Access → Prop
  | declaration {d e : Node} {type : TypeName} {ds : List Tree} {acc : List Access}
      (hkind : d.kind = .localDeclaration) (htype : e.kind = .variableDeclaration type)
      (body : Declares step (Tree.numberFrom (step + 2) ds) acc) :
      Performs step (.node d [.node e ds]) acc
  | initializer {d : Node} {type : TypeName} {ds : List Tree} {acc : List Access}
      (hkind : d.kind = .variableDeclaration type)
      (body : Declares step (Tree.numberFrom (step + 1) ds) acc) : Performs step (.node d ds) acc
  | statement {d : Node} {t : Tree} {acc : List Access}
      (hkind : d.kind = .expressionStatement ∨ d.kind = .returnStatement)
      (value : Evaluates (step + 1) t acc) : Performs step (.node d [t]) acc
  | nothing {d : Node} (hkind : d.kind = .emptyStatement ∨ d.kind = .returnStatement) :
      Performs step (.node d []) []
  | expression {t : Tree} {acc : List Access} (value : Evaluates step t acc) : Performs step t acc

/-- The steps that were executed, each with its accesses. -/
abbrev History := List (Nat × List Access)

open Steps in
/-- A stack of work may be executed up to another one with this history. -/
inductive Executes (a : Arena) : List Work → History → List Work → Prop
  | done {K : List Work} : Executes a K [] K
  | silent {K K₁ K₂ : List Work} {history : History} (move : Move K none K₁)
      (rest : Executes a K₁ history K₂) : Executes a K history K₂
  | step {K K₁ K₂ : List Work} {n : Nat} {t : Tree} {acc : List Access} {history : History}
      (move : Move K (some n) K₁) (tree : a.subtree? n = some t) (performs : Performs n t acc)
      (rest : Executes a K₁ history K₂) : Executes a K ((n, acc) :: history) K₂

/-! ## What is accessed -/

section Within

variable {root t : Tree} {n id i site step : Nat} {x : String} {acc : List Access} {e : Access}

/-- The assignment at a node is to a variable. -/
def Assigns (root : Tree) (site : Nat) (x : String) : Prop :=
  ∃ t op, root.subtree? site = some t ∧ t.kind = .assignment op ∧
    t.children.head?.bind Variables.nameOf? = some x

/-- What an expression at a node accesses: names and assignments at or below the node. -/
def Within (root : Tree) (id : Nat) : Access → Prop
  | .reads i x => root.NameBelow id ⟨i, x⟩
  | .defines site x => root.Below id site ∧ Assigns root site x
  | .counts _ => True

/-- What is within a node is within each node above it. -/
theorem Within.up {k : Nat} (h : Within root k e) (hbelow : root.Below n k) : Within root n e := by
  cases e with
  | reads i x => exact hbelow.name h
  | defines site x => exact h.imp_left hbelow.trans
  | counts x => trivial

/-- An identifier is the identifier that it is. -/
theorem identifier?_identifier {d : Node} (hkind : d.kind = .identifier x) (id : Nat)
    (cs : List Tree) : identifier? id (.node d cs) = some (id, x) := by
  rw [identifier?.eq_def]
  dsimp only
  rw [hkind]

/-- The equations of `identifier?` and of `nameOf?` are the same. -/
theorem map_identifier? (id : Nat) (t : Tree) :
    (identifier? id t).map Prod.snd = Variables.nameOf? t := by
  induction t using Tree.inductionOn generalizing id with
  | node d cs ih =>
      obtain ⟨kind, span, token, synthetic, trailing⟩ := d
      cases kind with
      | parenthesized =>
          cases cs with
          | nil => rfl
          | cons inner rest => exact ih inner List.mem_cons_self (id + 1)
      | _ => rfl

/-- What stands for an identifier has its name. -/
theorem nameOf?_of_identifier? (h : identifier? id t = some (i, x)) :
    Variables.nameOf? t = some x := by
  rw [← map_identifier? id, h]
  rfl

/-- An identifier is named below what stands for it. -/
theorem nameBelow_of_identifier? (hid : root.subtree? id = some t)
    (h : identifier? id t = some (i, x)) : root.NameBelow id ⟨i, x⟩ := by
  induction t using Tree.inductionOn generalizing id with
  | node d cs ih =>
      rw [identifier?.eq_def] at h
      dsimp only at h
      split at h
      · rename_i inner rest hkind
        have hinner : (id + 1, inner) ∈ Tree.numberFrom (id + 1) (inner :: rest) := by
          rw [Tree.numberFrom_cons]
          exact List.mem_cons_self
        obtain ⟨hsub, hbelow⟩ := Tree.below_of_mem_numberFrom hid hinner
        exact hbelow.name (ih inner List.mem_cons_self hsub h)
      · rename_i name hkind
        obtain ⟨rfl, rfl⟩ := Prod.mk.inj (Option.some.inj h)
        refine ⟨Tree.below_self hid, ?_⟩
        rw [Arena.kind?_eq, hid]
        exact congrArg some hkind
      · cases h

/-- What holds of the accesses of each expression holds of those of all. -/
theorem EvaluatesAll.forall {P : Access → Prop} {ts : List (Nat × Tree)}
    (h : EvaluatesAll ts acc)
    (hts : ∀ p ∈ ts, ∀ acc, Evaluates p.1 p.2 acc → ∀ e ∈ acc, P e) : ∀ e ∈ acc, P e := by
  induction ts generalizing acc with
  | nil =>
      cases h
      exact List.forall_mem_nil _
  | cons p ts ih =>
      cases h with
      | cons here rest =>
          obtain ⟨hp, hts⟩ := List.forall_mem_cons.mp hts
          exact List.forall_mem_append.mpr ⟨hp _ here, ih rest hts⟩

/-- **What an expression accesses** is at or below its node. -/
theorem Evaluates.within (h : Evaluates id t acc) (hid : root.subtree? id = some t) :
    ∀ e ∈ acc, Within root id e := by
  induction t using Tree.inductionOn generalizing id acc with
  | node d cs ih =>
      have hchild : ∀ p ∈ Tree.numberFrom (id + 1) cs, ∀ acc, Evaluates p.1 p.2 acc →
          ∀ e ∈ acc, Within root id e := by
        intro p hp acc value e he
        have hmem : p.2 ∈ cs := by
          rw [← Tree.map_snd_numberFrom (id + 1) cs]
          exact List.mem_map_of_mem hp
        obtain ⟨hsub, hbelow⟩ := Tree.below_of_mem_numberFrom hid hp
        exact (ih p.2 hmem value hsub e he).up hbelow
      have hassigned : ∀ op target source x, d.kind = .assignment op → cs = [target, source] →
          Variables.nameOf? target = some x → Within root id (.defines id x) := by
        intro op target source x hkind hcs hname
        exact ⟨Tree.below_self hid, .node d cs, op, hid, hkind, by rw [hcs]; exact hname⟩
      have hnamed : ∀ i x target rest, cs = target :: rest →
          identifier? (id + 1) target = some (i, x) → Within root id (.reads i x) := by
        intro i x target rest hcs hname
        have htarget : (id + 1, target) ∈ Tree.numberFrom (id + 1) cs := by
          rw [hcs, Tree.numberFrom_cons]
          exact List.mem_cons_self
        obtain ⟨hsub, hbelow⟩ := Tree.below_of_mem_numberFrom hid htarget
        exact hbelow.name (nameBelow_of_identifier? hsub hname)
      cases h with
      | literal => exact List.forall_mem_nil _
      | identifier hkind =>
          refine List.forall_mem_singleton.mpr ⟨Tree.below_self hid, ?_⟩
          rw [Arena.kind?_eq, hid]
          exact congrArg some hkind
      | parenthesized _ value => exact hchild _ List.mem_cons_self _ value
      | binary _ left right =>
          exact List.forall_mem_append.mpr ⟨hchild _ List.mem_cons_self _ left,
            hchild _ (List.mem_cons_of_mem _ List.mem_cons_self) _ right⟩
      | shortcut _ _ left => exact hchild _ List.mem_cons_self _ left
      | step _ _ hname =>
          exact List.forall_mem_cons.mpr
            ⟨hnamed _ _ _ _ rfl hname, List.forall_mem_singleton.mpr trivial⟩
      | unary _ _ value => exact hchild _ List.mem_cons_self _ value
      | simple hkind _ hname value =>
          exact List.forall_mem_append.mpr
            ⟨hchild _ (List.mem_cons_of_mem _ List.mem_cons_self) _ value,
              List.forall_mem_singleton.mpr
                (hassigned _ _ _ _ hkind rfl (nameOf?_of_identifier? hname))⟩
      | compound hkind _ hname value =>
          exact List.forall_mem_cons.mpr ⟨hnamed _ _ _ _ rfl hname, List.forall_mem_append.mpr
            ⟨hchild _ (List.mem_cons_of_mem _ List.mem_cons_self) _ value,
              List.forall_mem_singleton.mpr
                (hassigned _ _ _ _ hkind rfl (nameOf?_of_identifier? hname))⟩⟩
      | elsewhere _ _ place value =>
          exact List.forall_mem_append.mpr ⟨hchild _ List.mem_cons_self _ place,
            hchild _ (List.mem_cons_of_mem _ List.mem_cons_self) _ value⟩
      | invocation _ values => exact values.forall hchild

/-- An expression is no declaration. -/
theorem Evaluates.declaration? (h : Evaluates id t acc) (step : Nat) :
    Variables.declaration? step t = none := by
  cases h with
  | step hkind | unary hkind =>
      rcases hkind with hkind | hkind <;> rw [Variables.declaration?, Tree.kind, Tree.root, hkind]
  | literal hkind | identifier hkind | parenthesized hkind | binary hkind | shortcut hkind
  | simple hkind | compound hkind | elsewhere hkind | invocation hkind =>
      rw [Variables.declaration?, Tree.kind, Tree.root, hkind]

/-- An access of declarators is the definition of one, or one of an initializer. -/
theorem Declares.access {ds : List (Nat × Tree)} (h : Declares step ds acc) (he : e ∈ acc) :
    ∃ p ∈ ds, (∃ name, p.2.kind = .variableDeclarator name ∧ e = .defines step name) ∨
      ∃ q ∈ Tree.numberFrom (p.1 + 1) p.2.children, ∃ acc, Evaluates q.1 q.2 acc ∧ e ∈ acc := by
  induction h with
  | nil => cases he
  | uninitialized hkind _ ih =>
      rcases List.mem_cons.mp he with rfl | he
      · exact ⟨_, List.mem_cons_self, .inl ⟨_, hkind, rfl⟩⟩
      · obtain ⟨p, hp, haccess⟩ := ih he
        exact ⟨p, List.mem_cons_of_mem _ hp, haccess⟩
  | initialized hkind value _ ih =>
      rcases List.mem_append.mp he with he | he
      · exact ⟨_, List.mem_cons_self, .inr ⟨_, List.mem_cons_self, _, value, he⟩⟩
      · rcases List.mem_cons.mp he with rfl | he
        · exact ⟨_, List.mem_cons_self, .inl ⟨_, hkind, rfl⟩⟩
        · obtain ⟨p, hp, haccess⟩ := ih he
          exact ⟨p, List.mem_cons_of_mem _ hp, haccess⟩

/-- Every declarator makes its definition. -/
theorem Declares.defines {ds : List (Nat × Tree)} (h : Declares step ds acc) {p : Nat × Tree}
    (hp : p ∈ ds) (hkind : p.2.kind = .variableDeclarator x) : .defines step x ∈ acc := by
  induction h with
  | nil => cases hp
  | uninitialized hkind' _ ih =>
      rcases List.mem_cons.mp hp with rfl | hp
      · obtain rfl := Kind.variableDeclarator.inj (hkind'.symm.trans hkind)
        exact List.mem_cons_self
      · exact List.mem_cons_of_mem _ (ih hp)
  | initialized hkind' _ _ ih =>
      apply List.mem_append_right
      rcases List.mem_cons.mp hp with rfl | hp
      · obtain rfl := Kind.variableDeclarator.inj (hkind'.symm.trans hkind)
        exact List.mem_cons_self
      · exact List.mem_cons_of_mem _ (ih hp)

/-- A step is a declaration that declares, or what it accesses is at or below its node. -/
theorem Performs.declares_or_within (h : Performs step t acc) (hstep : root.subtree? step = some t) :
    (∃ n u, Variables.declaration? step t = some (n, u) ∧ root.subtree? n = some u ∧
        root.Below step n ∧ Declares step (Tree.numberFrom (n + 1) u.children) acc) ∨
      (Variables.declaration? step t = none ∧ ∀ e ∈ acc, Within root step e) := by
  cases h with
  | @declaration d e type ds acc hkind htype body =>
      have hfirst : (step + 1, Tree.node e ds) ∈ Tree.numberFrom (step + 1) [.node e ds] :=
        List.mem_cons_self
      obtain ⟨hsub, hbelow⟩ := Tree.below_of_mem_numberFrom hstep hfirst
      refine .inl ⟨step + 1, .node e ds, ?_, hsub, hbelow, body⟩
      cases d
      cases hkind
      rfl
  | @initializer d type ds acc hkind body =>
      refine .inl ⟨step, .node d ds, ?_, hstep, Tree.below_self hstep, body⟩
      cases d
      cases hkind
      rfl
  | @statement d u acc hkind value =>
      have hfirst : (step + 1, u) ∈ Tree.numberFrom (step + 1) [u] := List.mem_cons_self
      obtain ⟨hsub, hbelow⟩ := Tree.below_of_mem_numberFrom hstep hfirst
      refine .inr ⟨?_, fun e he => (value.within hsub e he).up hbelow⟩
      rcases hkind with hkind | hkind <;> cases d <;> cases hkind <;> rfl
  | @nothing d hkind =>
      refine .inr ⟨?_, List.forall_mem_nil _⟩
      rcases hkind with hkind | hkind <;> cases d <;> cases hkind <;> rfl
  | expression value => exact .inr ⟨value.declaration? step, value.within hstep⟩

/-- **A definition that is made** is an assignment at or below the step, or one of a declaration. -/
theorem Performs.defines (h : Performs step t acc) (hstep : root.subtree? step = some t)
    (he : .defines site x ∈ acc) : (root.Below step site ∧ Assigns root site x) ∨
      (site = step ∧ ∃ n u, Variables.declaration? step t = some (n, u) ∧
        x ∈ Variables.declaredNames u) := by
  rcases h.declares_or_within hstep with ⟨n, u, hdeclaration, hu, hbelow, body⟩ | ⟨-, hwithin⟩
  · obtain ⟨p, hp, ⟨name, hkind, heq⟩ | ⟨q, hq, acc, value, he⟩⟩ := body.access he
    · obtain ⟨rfl, rfl⟩ := Access.defines.inj heq
      refine .inr ⟨rfl, n, u, hdeclaration, List.mem_filterMap.mpr ⟨p.2, ?_, ?_⟩⟩
      · rw [← Tree.map_snd_numberFrom (n + 1) u.children]
        exact List.mem_map_of_mem hp
      · rw [hkind]
    · obtain ⟨hp, hbelow'⟩ := Tree.below_of_mem_numberFrom hu hp
      obtain ⟨hq, hbelow''⟩ := Tree.below_of_mem_numberFrom hp hq
      exact .inl ((value.within hq _ he).up ((hbelow.trans hbelow').trans hbelow''))
  · exact .inl (hwithin _ he)

/-- **A name that is read** is at or below the step, and in a declaration it is one of the
initializers. -/
theorem Performs.reads (h : Performs step t acc) (hstep : root.subtree? step = some t)
    (he : .reads i x ∈ acc) : root.NameBelow step ⟨i, x⟩ ∧
      ∀ n u, Variables.declaration? step t = some (n, u) →
        ⟨i, x⟩ ∈ Variables.initializerNames n u := by
  rcases h.declares_or_within hstep with ⟨n, u, hdeclaration, hu, hbelow, body⟩ | ⟨hnone, hwithin⟩
  · obtain ⟨p, hp, ⟨name, hkind, heq⟩ | ⟨q, hq, acc, value, he⟩⟩ := body.access he
    · cases heq
    · obtain ⟨hsub, hbelow'⟩ := Tree.below_of_mem_numberFrom hu hp
      obtain ⟨hsub', hbelow''⟩ := Tree.below_of_mem_numberFrom hsub hq
      have hname : root.NameBelow q.1 ⟨i, x⟩ := value.within hsub' _ he
      refine ⟨((hbelow.trans hbelow').trans hbelow'').name hname, ?_⟩
      intro n' u' hdeclaration'
      obtain ⟨rfl, rfl⟩ := Prod.mk.inj (Option.some.inj (hdeclaration.symm.trans hdeclaration'))
      exact List.mem_flatMap.mpr ⟨p, hp, List.mem_flatMap.mpr
        ⟨q, hq, (Variables.mem_identifiersIn hsub').mpr hname⟩⟩
  · refine ⟨hwithin _ he, ?_⟩
    intro n u hdeclaration
    rw [hnone] at hdeclaration
    cases hdeclaration

/-- **A declaration defines** all that it declares. -/
theorem Performs.defines_of_declaredNames (h : Performs step t acc)
    (hstep : root.subtree? step = some t) {u : Tree}
    (hdeclaration : Variables.declaration? step t = some (n, u))
    (hx : x ∈ Variables.declaredNames u) : .defines step x ∈ acc := by
  rcases h.declares_or_within hstep with ⟨n', u', hdeclaration', -, -, body⟩ | ⟨hnone, -⟩
  · obtain ⟨rfl, rfl⟩ := Prod.mk.inj (Option.some.inj (hdeclaration.symm.trans hdeclaration'))
    obtain ⟨c, hc, hname⟩ := List.mem_filterMap.mp hx
    rw [← Tree.map_snd_numberFrom (n + 1) u.children] at hc
    obtain ⟨p, hp, rfl⟩ := List.mem_map.mp hc
    split at hname
    · rename_i hkind
      obtain rfl := Option.some.inj hname
      exact body.defines hp hkind
    · cases hname
  · rw [hnone] at hdeclaration
    cases hdeclaration

end Within

/-! ## The same evaluation by local -/

section Events

open Execution

variable {fs : Frames} {t : Tree} {ev : List Event} {x : String}

/-- What an access is to the local that the name stands for. -/
def Access.events (fs : Frames) : Access → List Event
  | .reads _ name => touch .reads fs name
  | .defines _ name | .counts name => touch .assigns fs name

/-- What has a name stands for an identifier. -/
theorem exists_identifier? (id : Nat) (h : Variables.nameOf? t = some x) :
    ∃ i, identifier? id t = some (i, x) := by
  rw [← map_identifier? id, Option.map_eq_some_iff] at h
  obtain ⟨⟨i, name⟩, hname, rfl⟩ := h
  exact ⟨i, hname⟩

/-- What stands for no identifier has no name. -/
theorem identifier?_eq_none_iff (id : Nat) (t : Tree) :
    identifier? id t = none ↔ Variables.nameOf? t = none := by
  rw [← map_identifier? id, Option.map_eq_none_iff]

/-- Expressions are evaluated alike if each of them is. -/
theorem evaluatesAll_iff {ts : List Tree}
    (ih : ∀ t ∈ ts, ∀ id ev, Execution.Evaluates fs t ev ↔
      ∃ acc, Evaluates id t acc ∧ acc.flatMap (Access.events fs) = ev) (id : Nat) :
    Execution.EvaluatesAll fs ts ev ↔
      ∃ acc, EvaluatesAll (Tree.numberFrom id ts) acc ∧ acc.flatMap (Access.events fs) = ev := by
  induction ts generalizing id ev with
  | nil =>
      constructor
      · intro h
        cases h
        exact ⟨[], .nil, rfl⟩
      · rintro ⟨acc, h, rfl⟩
        cases h
        exact .nil
  | cons t ts ihs =>
      obtain ⟨ht, hts⟩ := List.forall_mem_cons.mp ih
      rw [Tree.numberFrom_cons]
      constructor
      · intro h
        cases h with
        | cons here rest =>
            obtain ⟨acc, head, rfl⟩ := (ht id _).mp here
            obtain ⟨acc', tail, rfl⟩ := (ihs hts (id + t.size)).mp rest
            exact ⟨acc ++ acc', .cons head tail, List.flatMap_append⟩
      · rintro ⟨acc, h, rfl⟩
        cases h with
        | cons here rest =>
            rw [List.flatMap_append]
            exact .cons ((ht id _).mpr ⟨_, here, rfl⟩)
              ((ihs hts (id + t.size)).mpr ⟨_, rest, rfl⟩)

/-- **An expression is evaluated alike**, whether it is told by nodes and names or by locals. -/
theorem evaluates_iff (id : Nat) : Execution.Evaluates fs t ev ↔
    ∃ acc, Evaluates id t acc ∧ acc.flatMap (Access.events fs) = ev := by
  induction t using Tree.inductionOn generalizing id ev with
  | node d cs ih =>
      constructor
      · intro h
        cases h with
        | literal hkind => exact ⟨[], .literal hkind, rfl⟩
        | identifier hkind => exact ⟨_, .identifier hkind, List.flatMap_singleton _ _⟩
        | parenthesized hkind value =>
            obtain ⟨acc, value', rfl⟩ := (ih _ List.mem_cons_self (id + 1)).mp value
            exact ⟨acc, .parenthesized hkind value', rfl⟩
        | @binary _ _ l r _ _ hkind left right =>
            obtain ⟨acc, left', rfl⟩ := (ih l List.mem_cons_self (id + 1)).mp left
            obtain ⟨acc', right', rfl⟩ :=
              (ih r (List.mem_cons_of_mem _ List.mem_cons_self) (id + 1 + l.size)).mp right
            exact ⟨acc ++ acc', .binary hkind left' right', List.flatMap_append⟩
        | shortcut hkind hop left =>
            obtain ⟨acc, left', rfl⟩ := (ih _ List.mem_cons_self (id + 1)).mp left
            exact ⟨acc, .shortcut hkind hop left', rfl⟩
        | step hkind hop hname =>
            obtain ⟨i, hname⟩ := exists_identifier? (id + 1) hname
            exact ⟨_, .step hkind hop hname, by simp [Access.events]⟩
        | unary hkind hop value =>
            obtain ⟨acc, value', rfl⟩ := (ih _ List.mem_cons_self (id + 1)).mp value
            rw [← identifier?_eq_none_iff (id + 1)] at hop
            exact ⟨acc, .unary hkind hop value', rfl⟩
        | @simple _ _ target source _ _ hkind hop hname value =>
            obtain ⟨i, hname⟩ := exists_identifier? (id + 1) hname
            obtain ⟨acc, value', rfl⟩ := (ih source (List.mem_cons_of_mem _ List.mem_cons_self)
              (id + 1 + target.size)).mp value
            exact ⟨_, .simple hkind hop hname value', by simp [Access.events]⟩
        | @compound _ _ _ target source _ _ hkind hop hname value =>
            obtain ⟨i, hname⟩ := exists_identifier? (id + 1) hname
            obtain ⟨acc, value', rfl⟩ := (ih source (List.mem_cons_of_mem _ List.mem_cons_self)
              (id + 1 + target.size)).mp value
            exact ⟨_, .compound hkind hop hname value', by simp [Access.events]⟩
        | @elsewhere _ _ target source _ _ hkind hname place value =>
            obtain ⟨acc, place', rfl⟩ := (ih target List.mem_cons_self (id + 1)).mp place
            obtain ⟨acc', value', rfl⟩ := (ih source (List.mem_cons_of_mem _ List.mem_cons_self)
              (id + 1 + target.size)).mp value
            rw [← identifier?_eq_none_iff (id + 1)] at hname
            exact ⟨acc ++ acc', .elsewhere hkind hname place' value', List.flatMap_append⟩
        | invocation hkind values =>
            obtain ⟨acc, values', rfl⟩ := (evaluatesAll_iff (fun t ht id ev => ih t ht id) (id + 1)).mp values
            exact ⟨acc, .invocation hkind values', rfl⟩
      · rintro ⟨acc, h, rfl⟩
        cases h with
        | literal hkind => exact .literal hkind
        | identifier hkind =>
            rw [List.flatMap_singleton]
            exact .identifier hkind
        | parenthesized hkind value =>
            exact .parenthesized hkind ((ih _ List.mem_cons_self (id + 1)).mpr ⟨_, value, rfl⟩)
        | @binary _ _ _ l r _ _ hkind left right =>
            rw [List.flatMap_append]
            exact .binary hkind ((ih l List.mem_cons_self (id + 1)).mpr ⟨_, left, rfl⟩)
              ((ih r (List.mem_cons_of_mem _ List.mem_cons_self) (id + 1 + l.size)).mpr
                ⟨_, right, rfl⟩)
        | shortcut hkind hop left =>
            exact .shortcut hkind hop ((ih _ List.mem_cons_self (id + 1)).mpr ⟨_, left, rfl⟩)
        | step hkind hop hname =>
            have h : Execution.Evaluates fs _ _ := .step hkind hop (nameOf?_of_identifier? hname)
            simpa [Access.events] using h
        | unary hkind hop value =>
            rw [identifier?_eq_none_iff (id + 1)] at hop
            exact .unary hkind hop ((ih _ List.mem_cons_self (id + 1)).mpr ⟨_, value, rfl⟩)
        | @simple _ _ _ _ target source _ _ hkind hop hname value =>
            have hvalue := (ih source (List.mem_cons_of_mem _ List.mem_cons_self)
              (id + 1 + target.size)).mpr ⟨_, value, rfl⟩
            simpa [Access.events] using
              Execution.Evaluates.simple hkind hop (nameOf?_of_identifier? hname) hvalue
        | @compound _ _ _ _ _ target source _ _ hkind hop hname value =>
            have hvalue := (ih source (List.mem_cons_of_mem _ List.mem_cons_self)
              (id + 1 + target.size)).mpr ⟨_, value, rfl⟩
            simpa [Access.events] using
              Execution.Evaluates.compound hkind hop (nameOf?_of_identifier? hname) hvalue
        | @elsewhere _ _ _ target source _ _ hkind hname place value =>
            rw [List.flatMap_append]
            rw [identifier?_eq_none_iff (id + 1)] at hname
            exact .elsewhere hkind hname ((ih target List.mem_cons_self (id + 1)).mpr ⟨_, place, rfl⟩)
              ((ih source (List.mem_cons_of_mem _ List.mem_cons_self)
                (id + 1 + target.size)).mpr ⟨_, value, rfl⟩)
        | invocation hkind values =>
            exact .invocation hkind
              ((evaluatesAll_iff (fun t ht id ev => ih t ht id) (id + 1)).mpr ⟨_, values, rfl⟩)

end Events

/-! ## Executions -/

section Executions

open Steps

variable {a : Arena} {g : FlowGraph} {id n s : Nat} {body : Tree} {K K₂ : List Work}
  {history earlier later : History} {acc : List Access}

/-- The steps of an execution are performed. -/
theorem Executes.performs (h : Executes a K history K₂) (hn : (n, acc) ∈ history) :
    ∃ t, a.subtree? n = some t ∧ Performs n t acc := by
  induction h with
  | done => cases hn
  | silent _ _ ih => exact ih hn
  | step _ tree performs _ ih =>
      rcases List.mem_cons.mp hn with heq | hn
      · obtain ⟨rfl, rfl⟩ := Prod.mk.inj heq
        exact ⟨_, tree, performs⟩
      · exact ih hn

/-- An execution may be stopped anywhere. -/
theorem Executes.split (h : Executes a K history K₂) (hsplit : history = earlier ++ later) :
    ∃ K₁, Executes a K earlier K₁ ∧ Executes a K₁ later K₂ := by
  induction h generalizing earlier with
  | done =>
      obtain ⟨rfl, rfl⟩ := List.append_eq_nil_iff.mp hsplit.symm
      exact ⟨_, .done, .done⟩
  | silent move _ ih =>
      obtain ⟨K₁, hearlier, hlater⟩ := ih hsplit
      exact ⟨K₁, .silent move hearlier, hlater⟩
  | step move tree performs rest ih =>
      cases earlier with
      | nil =>
          rw [List.nil_append] at hsplit
          exact ⟨_, .done, hsplit ▸ .step move tree performs rest⟩
      | cons p earlier =>
          obtain ⟨rfl, hrest⟩ := List.cons.inj hsplit
          obtain ⟨K₁, hearlier, hlater⟩ := ih hrest
          exact ⟨K₁, .step move tree performs hearlier, hlater⟩

/-- The first step of an execution is ahead of it. -/
theorem Executes.ahead (h : Executes a K history K₂) (hfirst : history = (n, acc) :: later) :
    Ahead K n := by
  induction h with
  | done => cases hfirst
  | silent move _ ih => exact .of_silent move (ih hfirst)
  | step move _ _ _ =>
      obtain ⟨heq, -⟩ := List.cons.inj hfirst
      obtain ⟨rfl, -⟩ := Prod.mk.inj heq
      exact .of_move move

/-- The steps of an execution, and the one ahead of it, follow the edges of the graph. -/
theorem Executes.follows (h : Executes a K history K₂) (horder : IsOrder g id body)
    (hlocated : Located id body K) (hn : Ahead K₂ n) :
    ∃ first rest, history.map Prod.fst ++ [n] = first :: rest ∧ Ahead K first ∧
      List.IsChain (fun n m => m ∈ g.successors n) (first :: rest) := by
  induction h with
  | done => exact ⟨n, [], rfl, hn, .singleton n⟩
  | silent move _ ih =>
      obtain ⟨first, rest, heq, hahead, hchain⟩ := ih (hlocated.move move) hn
      exact ⟨first, rest, heq, .of_silent move hahead, hchain⟩
  | @step K K₁ K₂ s t acc history move _ _ _ ih =>
      obtain ⟨first, rest, heq, hahead, hchain⟩ := ih (hlocated.move move) hn
      have hedge : first ∈ g.successors s :=
        (horder.everywhere K s K₁ hlocated move first).mpr ⟨K₁, move, hahead⟩
      refine ⟨s, first :: rest, ?_, .of_move move, .cons_cons hedge hchain⟩
      rw [List.map_cons, List.cons_append, heq]

/-- **An execution is a path**: it leads from each of its steps, past those executed since, to
the step ahead. -/
theorem Executes.leads (h : Executes a [.run id body] history K) (horder : IsOrder g id body)
    (hhistory : history = earlier ++ (s, acc) :: later) (hn : Ahead K n) :
    g.Leads s (later.map Prod.fst) n := by
  obtain ⟨first, rest, heq, -, hchain⟩ := h.follows horder .start hn
  rw [← heq, hhistory, List.map_append, List.map_cons, List.append_assoc] at hchain
  exact hchain.right_of_append

end Executions

end Trace

end SharpMutants
