import SharpMutants.Proofs.Rendering.Lossless
import SharpMutants.Proofs.Scanning.Printed

/-!
# Canonical forms

`Tree.print` is the canonical form of a whole tree: every node prints as the canonical form of its
kind.  `Kind.Printed` says of a kind that its form is read as the words of its phrase
whatever the children are, as long as they are printed likewise.  It holds of every kind, one lemma
each, but for the operators in front of an operand: a sign runs together with an operand that
begins with the same sign, and `Tree.signsMeet` finds such places.
-/

namespace SharpMutants

open Scan

namespace Tree

mutual

/-- The canonical form of a whole tree. -/
def print : Tree → Text
  | node d cs => Render.canonical d.kind (prints cs)

/-- The canonical forms of the trees of a list. -/
def prints : List Tree → List Text
  | [] => []
  | c :: cs => c.print :: prints cs

end

theorem prints_eq (cs : List Tree) : prints cs = cs.map print := by
  induction cs with
  | nil => rfl
  | cons c cs ih => rw [prints, ih, List.map_cons]

/-- The canonical form of a node is made of those of its children. -/
theorem print_node (d : Node) (cs : List Tree) :
    (node d cs).print = Render.canonical d.kind (cs.map print) := by
  rw [print, prints_eq]

/-- A sign stands before an operand that begins with the same sign. -/
def meetsSign (t : Tree) : Bool :=
  match t.kind, t.children with
  | .prefixUnary op, [operand] =>
    match operand.kind with
    | .prefixUnary op' =>
      (op == .negate || op == .plus) && op.symbol.toList.isPrefixOf op'.symbol.toList
    | _ => false
  | _, _ => false

/-- A prefix operator meets the same sign in front of its operand. -/
theorem meetsSign_prefixUnary {d : Node} {op : UnaryOp} (hd : d.kind = .prefixUnary op) (a : Tree) :
    (node d [a]).meetsSign = match a.kind with
      | .prefixUnary op' =>
        (op == .negate || op == .plus) && op.symbol.toList.isPrefixOf op'.symbol.toList
      | _ => false := by
  simp only [meetsSign, children]
  rw [kind, root, hd]

/-- Only a prefix operator meets a sign. -/
theorem meetsSign_eq_false {t : Tree} (h : ∀ op, t.kind ≠ .prefixUnary op) :
    t.meetsSign = false := by
  unfold meetsSign
  split
  · exact absurd ‹_› (h _)
  · rfl

/-- Somewhere in a tree a sign stands before an operand that begins with the same sign. -/
def signsMeet (t : Tree) : Bool := t.subtrees.any meetsSign

/-- Signs meet in a tree if they do at its root or in a child. -/
theorem signsMeet_node (d : Node) (cs : List Tree) :
    (node d cs).signsMeet = ((node d cs).meetsSign || cs.any signsMeet) := by
  rw [signsMeet, subtrees_node, List.any_cons]
  congr 1
  induction cs with
  | nil => rw [subtreesOf_nil]; rfl
  | cons c cs ih => rw [subtreesOf_cons, List.any_append, ih, List.any_cons, signsMeet]

end Tree

/-! ## Words of a phrase -/

section Words

variable {xs ys : List (Part (List Lexeme))} {l : Lexeme} {ls : List Lexeme}
  {lss : List (List Lexeme)}

namespace Tree

@[simp] theorem words_nil : words [] = [] := rfl

@[simp] theorem words_word : words (.word l :: xs) = l :: words xs := rfl

@[simp] theorem words_own : words (.own l :: xs) = l :: words xs := rfl

@[simp] theorem words_child : words (.child ls :: xs) = ls ++ words xs := rfl

@[simp] theorem words_append : words (xs ++ ys) = words xs ++ words ys := List.flatMap_append

@[simp] theorem words_children : words (lss.map .child) = lss.flatten := by
  induction lss with
  | nil => rfl
  | cons ls lss ih => rw [List.map_cons, words_child, ih, List.flatten_cons]

/-- The words of children with commas are theirs with commas. -/
@[simp] theorem words_commas :
    words (Part.commas lss) = [Lexeme.mark .comma].intercalate lss := by
  induction lss using Part.commas.induct with
  | case1 => rfl
  | case2 ls => simp [Part.commas, List.intercalate]
  | case3 ls lss more ih =>
      obtain ⟨ms, lss, rfl⟩ := List.exists_cons_of_ne_nil more
      rw [Part.commas, words_child, words_word, ih]
      · simp [List.intercalate]
      · exact more

/-- The words of parts that are words are these. -/
@[simp] theorem words_map_word (ls : List Lexeme) :
    words (ls.map .word) = ls := by
  induction ls with
  | nil => rfl
  | cons l ls ih => rw [List.map_cons, words_word, ih]

end Tree

end Words

/-- Nothing between lists. -/
theorem nil_intercalate {α : Type} (xss : List (List α)) : [].intercalate xss = xss.flatten := by
  induction xss with
  | nil => rfl
  | cons xs xss ih =>
      cases xss with
      | nil => rfl
      | cons ys xss =>
          simp only [List.intercalate, List.intersperse_cons_cons, List.flatten_cons] at ih ⊢
          rw [ih, List.nil_append]

/-- Parts that are words are spelled by these. -/
@[simp] theorem Part.lexemes_words {α : Type} (ls : List Lexeme) :
    Part.lexemes (ls.map (Part.word (α := α))) = ls := by
  induction ls with
  | nil => rfl
  | cons l ls ih => rw [List.map_cons, Part.lexemes, ih]

/-- A dotted name is spelled by its segments and dots. -/
@[simp] theorem Part.lexemes_dotted {α : Type} (path : String) :
    Part.lexemes (Part.dotted (α := α) path) = Lexeme.dotted path := Part.lexemes_words _

/-- The words of modifiers are their keywords. -/
@[simp] theorem Tree.words_modifiers (ms : List Modifier) :
    words (Part.modifiers ms) = ms.map fun m => Lexeme.keyword (.modifier m) := by
  have hwords : Part.modifiers (α := List Lexeme) ms =
      (ms.map fun m => Lexeme.keyword (.modifier m)).map .word := by
    rw [Part.modifiers, List.map_map]
    rfl
  rw [hwords, words_map_word]

/-- The words of a dotted name are its segments and dots. -/
@[simp] theorem Tree.words_dotted (path : String) :
    words (Part.dotted path) = Lexeme.dotted path := words_map_word _

/-- The words of children in braces are theirs in braces. -/
@[simp] theorem Tree.words_braced (lss : List (List Lexeme)) :
    words (Part.braced lss) = .mark .openBrace :: (lss.flatten ++ [.mark .closeBrace]) := by
  rw [Part.braced, words_word, words_append, words_children]
  rfl

/-! ## The printing rules -/

/-- A tree prints as its words, unless signs meet in it. -/
def Tree.Printed (t : Tree) : Prop := Prints (t.signsMeet = false) t.print t.yield

/-- A node of a kind prints as its words, unless signs meet in its children. -/
def Kind.Printed (k : Kind) (cs : List Tree) : Prop :=
  Prints (∀ c ∈ cs, c.signsMeet = false) (Render.canonical k (cs.map Tree.print))
    (Tree.words (k.phrase (cs.map Tree.yield)))

namespace Kind

/-! Kinds with any number of children. -/

section Rows

variable {cs : List Tree} (hcs : ∀ c ∈ cs, c.Printed)

include hcs

/-- Children in a row, with a blank between neighbours. -/
theorem prints_row (blank : Char) (separator : String) (hblank : isBlank blank = true)
    (htext : separator.toList = [blank]) :
    Prints (∀ c ∈ cs, c.signsMeet = false) (Render.joined separator (cs.map Tree.print))
      (cs.map Tree.yield).flatten := by
  rw [← nil_intercalate]
  exact Prints.joined (.blank hblank) htext hcs

/-- Children in a list, with a mark and a blank between neighbours. -/
theorem prints_list (m : Mark) (separator : String) (hm : m ≠ .dot)
    (htext : separator.toList = m.characters ++ [' ']) :
    Prints (∀ c ∈ cs, c.signsMeet = false) (Render.joined separator (cs.map Tree.print))
      ([Lexeme.mark m].intercalate (cs.map Tree.yield)) :=
  Prints.joined (.mark hm) htext hcs

theorem printed_compilationUnit : Kind.compilationUnit.Printed cs :=
  (prints_row hcs '\n' "\n" rfl rfl).of_eq rfl (by rw [phrase, Tree.words_children]) Iff.rfl

/-- A namespace prints as its words. -/
theorem printed_namespaceDecl {path : String} (hpath : ∀ l ∈ Lexeme.dotted path, l.WellSpelled) :
    (Kind.namespaceDecl path).Printed cs := by
  have hmembers := (prints_row hcs ' ' " " rfl rfl).braced
  apply (((Prints.dotted hpath).gap hmembers).keyword .namespaceWord "namespace " rfl).of_eq
  · simp only [← List.append_assoc]
    rfl
  · simp [phrase, -List.map_map]
  · rw [true_and]

/-- A class prints as its words. -/
theorem printed_classDecl {name : String} (hname : (Lexeme.name name.toList).WellSpelled)
    (ms : List Modifier) : (Kind.classDecl name ms).Printed cs := by
  have hmembers := (prints_row hcs ' ' " " rfl rfl).braced
  apply ((((Prints.name hname).gap hmembers).keyword .classWord "class " rfl).modifiers ms).of_eq
  · simp only [← List.append_assoc]
    rfl
  · simp [phrase, -List.map_map]
  · rw [true_and]

theorem printed_fieldDecl (ms : List Modifier) : (Kind.fieldDecl ms).Printed cs := by
  apply ((prints_row hcs ' ' " " rfl rfl).ended.modifiers ms).of_eq
  · simp only [← List.append_assoc]
    rfl
  · simp [phrase, -List.map_map]
  · rfl

/-- A method prints as its words. -/
theorem printed_methodDecl {body : Tree} (hbody : body.Printed) {name : String}
    (hname : (Lexeme.name name.toList).WellSpelled) (ms : List Modifier) (type : TypeName) :
    (Kind.methodDecl name ms type).Printed (cs ++ [body]) := by
  have hlist := prints_list hcs .comma ", " nofun rfl
  have hopens : Breaks (['('] ++ (Render.joined ", " (cs.map Tree.print) ++
      (") ".toList ++ body.print))) := (breaks_mark (m := .openParen) nofun _)
  have hall := (((Prints.name hname).append (hlist.header hbody) (List.cons_ne_nil _ _)
    hopens).spaced (Lexeme.wellSpelled_keyword (.typeName type))).modifiers ms
  apply hall.of_eq
  · show Render.modifiers ms ++ type.keyword.toList ++ [' '] ++ name.toList ++ ['('] ++
      Render.joined ", " ((cs ++ [body]).map Tree.print).dropLast ++ ") ".toList ++
        ((cs ++ [body]).map Tree.print).getLast?.getD [] = _
    simp [Lexeme.keyword, Keyword.spelling]
  · simp [phrase, -List.map_map]
  · simp [or_imp, forall_and]

theorem printed_block : Kind.block.Printed cs := by
  cases cs with
  | nil =>
      have hend := Prints.closed (TokenKind.goesOn_lone (.inr rfl)) .nil
      apply (hend.spaced (Lexeme.wellSpelled_mark .openBrace)).of_eq rfl rfl
      simp
  | cons c cs =>
      apply (prints_row hcs ' ' " " rfl rfl).braced.of_eq rfl ?_ Iff.rfl
      rw [phrase, Tree.words_braced]

/-- A declaration of variables prints as its words. -/
theorem printed_variableDeclaration (type : TypeName) :
    (Kind.variableDeclaration type).Printed cs := by
  have hlist := prints_list hcs .comma ", " nofun rfl
  apply (hlist.spaced (Lexeme.wellSpelled_keyword (.typeName type))).of_eq
  · exact List.append_assoc ..
  · simp [phrase, -List.map_map]
  · rfl

/-- A call prints as its words. -/
theorem printed_invocation {callee : String}
    (hcallee : ∀ l ∈ Lexeme.dotted callee, l.WellSpelled) :
    (Kind.invocation callee).Printed cs := by
  have hlist := (prints_list hcs .comma ", " nofun rfl).parenthesized
  have hall := (Prints.dotted hcallee).append hlist (List.cons_ne_nil _ _)
    (breaks_mark (m := .openParen) nofun _)
  apply hall.of_eq
  · simp only [← List.append_assoc]
    rfl
  · simp [phrase, -List.map_map]
  · rw [true_and]

end Rows

/-! Kinds with a fixed number of children. -/

section Fixed

variable {a b : Tree} (ha : a.Printed) (hb : b.Printed)

include ha in
/-- One child prints as its words, if it does so. -/
theorem prints_one : Prints (∀ c ∈ [a], c.signsMeet = false) ([a].map Tree.print).flatten
    ([a].map Tree.yield).flatten :=
  ha.of_eq (List.append_nil _) (List.append_nil _) (by simp)

include ha in
theorem printed_localDeclaration : Kind.localDeclaration.Printed [a] := by
  apply (prints_one ha).ended.of_eq rfl ?_ Iff.rfl
  simp [phrase]

include ha in
theorem printed_expressionStatement : Kind.expressionStatement.Printed [a] := by
  apply (prints_one ha).ended.of_eq rfl ?_ Iff.rfl
  simp [phrase]

include ha in
theorem printed_elseClause : Kind.elseClause.Printed [a] := by
  apply ((prints_one ha).keyword .elseWord "else " rfl).of_eq rfl ?_ Iff.rfl
  simp [phrase]

include ha in
theorem printed_parenthesized : Kind.parenthesized.Printed [a] := by
  apply (prints_one ha).parenthesized.of_eq rfl ?_ Iff.rfl
  simp [phrase]

include ha in
/-- A postfix operator prints as its words. -/
theorem printed_postfixUnary {op : UnaryOp} (hop : op.isStep = true) :
    (Kind.postfixUnary op).Printed [a] := by
  have hclosed : ∀ after, (TokenKind.mark op.mark).goesOn after = false := by
    apply TokenKind.goesOn_closed
    cases op <;> first | decide | cases hop
  have hbreaks : Breaks (op.mark.characters ++ []) := breaks_mark (by cases op <;> nofun) []
  have hall := (prints_one ha).append (Prints.nil.closed hclosed) (by cases op <;> nofun) hbreaks
  apply hall.of_eq
  · rw [List.append_nil, ← op.symbol_toList]
    rfl
  · simp [phrase]
  · rw [and_true]

include ha in
theorem printed_returnValue : Kind.returnStatement.Printed [a] := by
  have hword := (Prints.ended ha).keyword .returnWord "return " rfl
  apply hword.of_eq
  · show "return".toList ++ (' ' :: a.print ++ []) ++ [';'] = _
    simp
  · simp [phrase]
  · simp

theorem printed_returnNothing : Kind.returnStatement.Printed [] := by
  have hword := (Prints.word (Lexeme.wellSpelled_keyword .returnWord) rfl).ended
  apply hword.of_eq rfl rfl
  simp

theorem printed_emptyStatement : Kind.emptyStatement.Printed [] := by
  have hend := Prints.nil.closed (TokenKind.goesOn_closed (m := .semicolon) (by decide))
  apply hend.of_eq rfl rfl
  simp

/-- A `using` directive prints as its words. -/
theorem printed_usingDirective {path : String} (hpath : ∀ l ∈ Lexeme.dotted path, l.WellSpelled) :
    (Kind.usingDirective path).Printed [] := by
  apply ((Prints.dotted hpath).ended.keyword .usingWord "using " rfl).of_eq
  · simp only [← List.append_assoc]
    rfl
  · simp [phrase]
  · simp

/-- A parameter prints as its words. -/
theorem printed_parameter {name : String} (hname : (Lexeme.name name.toList).WellSpelled)
    (type : TypeName) : (Kind.parameter name type).Printed [] := by
  apply ((Prints.name hname).spaced (Lexeme.wellSpelled_keyword (.typeName type))).of_eq
  · exact List.append_assoc ..
  · rfl
  · simp

/-- A declarator without an initializer prints as its name. -/
theorem printed_uninitialized {name : String} (hname : (Lexeme.name name.toList).WellSpelled) :
    (Kind.variableDeclarator name).Printed [] := by
  apply (Prints.name hname).of_eq (List.append_nil _) rfl
  simp

include ha in
/-- A declarator with an initializer prints as its words. -/
theorem printed_initialized {name : String} (hname : (Lexeme.name name.toList).WellSpelled) :
    (Kind.variableDeclarator name).Printed [a] := by
  have hvalue := (Separates.spaced .eq).prints ha
  have hall := (Prints.name hname).append hvalue (List.cons_ne_nil _ _)
    (Separates.spaced .eq).breaks
  apply hall.of_eq rfl ?_ (by simp)
  simp [phrase]

/-- An identifier prints as its name. -/
theorem printed_identifier {name : String} (hname : (Lexeme.name name.toList).WellSpelled) :
    (Kind.identifier name).Printed [] := by
  apply (Prints.name hname).of_eq rfl rfl
  simp

/-- A literal prints as it is spelled. -/
theorem printed_literal {value : Literal} (hvalue : value.lexeme.WellSpelled) :
    (Kind.literal value).Printed [] := by
  have hend : value.lexeme.kind.endsExpression = true := by
    unfold Literal.lexeme Literal.tokenKind
    cases value.kind <;> rfl
  apply (Prints.word hvalue hend).of_eq rfl rfl
  simp

include ha hb in
/-- Two operands with a mark between them. -/
theorem prints_operation (m : Mark) (separator : String)
    (htext : separator.toList = ' ' :: (m.characters ++ [' '])) :
    Prints (∀ c ∈ [a, b], c.signsMeet = false)
      (Render.joined separator ([a, b].map Tree.print)) (a.yield ++ .mark m :: b.yield) := by
  have hoperands : ∀ c ∈ [a, b], c.Printed := by simp [ha, hb]
  apply (Prints.joined (.spaced m) htext hoperands).of_eq rfl ?_ Iff.rfl
  simp [List.intercalate]

include ha hb in
theorem printed_assignment (op : AssignOp) : (Kind.assignment op).Printed [a, b] := by
  apply (prints_operation ha hb op.mark (" " ++ op.symbol ++ " ") ?_).of_eq rfl ?_ Iff.rfl
  · cases op <;> rfl
  · simp [phrase]

include ha hb in
/-- **A binary expression prints as its words**, with blanks around the operator. -/
theorem printed_binary (op : BinaryOp) : (Kind.binary op).Printed [a, b] := by
  apply (prints_operation ha hb op.mark (" " ++ op.symbol ++ " ") ?_).of_eq rfl ?_ Iff.rfl
  · cases op <;> rfl
  · simp [phrase]

include ha in
/-- An `if` prints as its words, with one branch or two. -/
theorem printed_ifStatement {branches : List Tree} (hbranches : ∀ c ∈ branches, c.Printed) :
    Kind.ifStatement.Printed (a :: branches) := by
  have hrow := prints_row hbranches ' ' " " rfl rfl
  apply (ha.headed .ifWord "if (" rfl hrow).of_eq
  · simp only [← List.append_assoc]
    rfl
  · simp [phrase, -List.map_map]
  · simp

include ha hb in
theorem printed_whileStatement : Kind.whileStatement.Printed [a, b] := by
  apply (ha.headed .whileWord "while (" rfl (prints_one hb)).of_eq
  · simp only [← List.append_assoc]
    rfl
  · simp [phrase]
  · simp

include ha hb in
/-- A `for` prints as its words. -/
theorem printed_forStatement {step body : Tree} (hstep : step.Printed) (hbody : body.Printed) :
    Kind.forStatement.Printed [a, b, step, body] := by
  have hcontrol : ∀ c ∈ [a, b, step], c.Printed := by simp [ha, hb, hstep]
  have hparts := prints_list hcontrol .semicolon "; " nofun rfl
  apply (hparts.headed .forWord "for (" rfl (prints_one hbody)).of_eq
  · simp only [← List.append_assoc]
    rfl
  · simp [phrase, List.intercalate]
  · simp [and_assoc]

end Fixed

end Kind

end SharpMutants
