import SharpMutants.Check.Diagnostic

/-!
# Scopes, flow and the state of a check

A check walks a method once.  Its state holds the open scopes with the locals
declared so far, what is known about the flow of control at the place it has
reached, and what it has found.

A local belongs to its whole block.  So each scope also holds the names that its
block declares anywhere among its own statements: a local declared in an inner
scope clashes with such a name even before the outer declaration is met.

Unreachable flow joins as if it assigned every variable.
-/

namespace SharpMutants.Check

/-- A declared local and what has been done with it. -/
structure Local where
  name : String
  type : Ty
  isRead : Bool
  isWritten : Bool
  declarator : Span
deriving DecidableEq

/-- An open scope: its locals, latest first, and the names its block declares. -/
structure Scope where
  locals : List Local
  reserved : List String
deriving DecidableEq

/-- What is known at a place: whether it can be reached, and the names assigned on every way
to it. -/
structure Flow where
  reachable : Bool
  assigned : List String
deriving DecidableEq

namespace Flow

/-- The beginning of a body. -/
def entry : Flow := ⟨true, []⟩

/-- The flow past a jump. -/
def cut (f : Flow) : Flow := { f with reachable := false }

/-- Two ways meet. -/
def join (f g : Flow) : Flow :=
  if !f.reachable then g
  else if !g.reachable then f
  else ⟨true, f.assigned.filter fun name => g.assigned.contains name⟩

/-- A name is assigned. -/
def assign (f : Flow) (name : String) : Flow :=
  if f.assigned.contains name then f else { f with assigned := name :: f.assigned }

/-- A name is no longer assigned. -/
def unassign (f : Flow) (name : String) : Flow :=
  { f with assigned := f.assigned.filter (· != name) }

end Flow

/-- The state of a check: open scopes, innermost first, the flow, and the findings, latest
first. -/
structure State where
  scopes : List Scope
  flow : Flow
  findings : List (Finding × Span)

/-- The parameter types and the result of a method. -/
structure Signature where
  parameters : List Ty
  result : Ty
deriving DecidableEq

/-- What stays fixed while a method or field is checked.  Of two fields or parameters of one
name the first in the list counts. -/
structure Env where
  fields : List (String × Ty)
  methods : List (String × Signature)
  parameters : List (String × Ty)
  result : Ty
  method : String

/-- The type given to a name in a list. -/
def typeIn? (entries : List (String × Ty)) (name : String) : Option Ty :=
  (entries.find? fun e => e.1 == name).map Prod.snd

namespace Scope

/-- Changes the local of a name, if the list has one. -/
def updateLocal? (change : Local → Local) (name : String) : List Local → Option (Ty × List Local)
  | [] => none
  | l :: ls =>
    if l.name == name then some (l.type, change l :: ls)
    else (updateLocal? change name ls).map fun (ty, ls) => (ty, l :: ls)

/-- Changes the innermost local of a name, if there is one. -/
def update? (change : Local → Local) (name : String) : List Scope → Option (Ty × List Scope)
  | [] => none
  | s :: ss =>
    match updateLocal? change name s.locals with
    | some (ty, ls) => some (ty, { s with locals := ls } :: ss)
    | none => (update? change name ss).map fun (ty, ss) => (ty, s :: ss)

/-- Whether a scope has a local of a name. -/
def declares (s : Scope) (name : String) : Bool := s.locals.any fun l => l.name == name

end Scope

namespace State

/-- Nothing is open and nothing is found. -/
def initial : State := ⟨[], .entry, []⟩

/-- Adds a finding at a place. -/
def report (s : State) (finding : Finding) (site : Span) : State :=
  { s with findings := (finding, site) :: s.findings }

/-- Adds a finding at a place under a condition. -/
def reportIf (s : State) (condition : Bool) (finding : Finding) (site : Span) : State :=
  if condition then s.report finding site else s

/-- Opens a scope whose block declares some names. -/
def openScope (s : State) (reserved : List String) : State :=
  { s with scopes := ⟨[], reserved⟩ :: s.scopes }

/-- The warning about a local that is never read. -/
def reportUnused (s : State) (l : Local) : State :=
  if l.isRead then s
  else s.report (if l.isWritten then .unusedValue l.name else .unusedLocal l.name) l.declarator

/-- Closes the innermost scope, with a warning for each of its locals that is never read, in
the order of declaration. -/
def closeScope (s : State) : State :=
  match s.scopes with
  | [] => s
  | scope :: rest => scope.locals.reverse.foldl reportUnused { s with scopes := rest }

/-- Declares a local in the innermost scope.  A second local of one name in a scope is
refused; one that a parameter or an enclosing scope already names is reported and kept. -/
def declare (env : Env) (s : State) (name : String) (type : Ty) (declarator : Span)
    (initialized : Bool) : State :=
  match s.scopes with
  | [] => s
  | scope :: outer =>
    if scope.declares name then s.report (.duplicateLocal name) declarator
    else
      let shadows := (typeIn? env.parameters name).isSome ||
        outer.any fun o => o.declares name || o.reserved.contains name
      let s := s.reportIf shadows (.shadowingLocal name) declarator
      let entry : Local := ⟨name, type, false, initialized, declarator⟩
      { s with scopes := { scope with locals := entry :: scope.locals } :: outer }

/-- The type of a name that is no local. -/
def nonLocal (env : Env) (s : State) (name : String) (site : Span) : Ty × State :=
  match typeIn? env.parameters name with
  | some ty => (ty, s)
  | none =>
    match typeIn? env.fields name with
    | some ty => (ty, s)
    | none => (.unknown, s.report (.unknownName name) site)

/-- A name is read. -/
def read (env : Env) (s : State) (name : String) (site : Span) : Ty × State :=
  match Scope.update? (fun l => { l with isRead := true }) name s.scopes with
  | some (ty, scopes) =>
    let unassigned := s.flow.reachable && !s.flow.assigned.contains name
    (ty, { s with scopes := scopes }.reportIf unassigned (.unassignedLocal name) site)
  | none => s.nonLocal env name site

/-- A name is assigned. -/
def write (env : Env) (s : State) (name : String) (site : Span) : Ty × State :=
  match Scope.update? (fun l => { l with isWritten := true }) name s.scopes with
  | some (ty, scopes) => (ty, { s with scopes := scopes, flow := s.flow.assign name })
  | none => s.nonLocal env name site

/-- A value of one type has to convert to another. -/
def convert (s : State) (given wanted : Ty) (site : Span) : State :=
  if given == .long && wanted == .int then s.report .narrowing site
  else s.reportIf (!given.convertsTo wanted) (.noConversion given wanted) site

end State

end SharpMutants.Check
