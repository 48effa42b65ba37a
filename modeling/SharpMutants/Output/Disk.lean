import SharpMutants.Output.Storage

/-!
# A file system as a value

A disk lists its entries by location, the names on the way from the top.  The top
is always a directory.  A path is walked step by step: every step but the last
has to lead to a directory, also where two dots take it back at once.  A call
fails and changes nothing, or has the effect that its name tells; only
`createDirectories` may fail half way.

A session is a disk in use.  It keeps a record of the calls, and a fault may meet
any call: the call then fails without effect, whatever the disk would have
allowed.  A look at a path that fails finds nothing there.  Which calls are at
fault may depend on all that was called before.
-/

namespace SharpMutants

/-- What stands at a location. -/
inductive Entry where
  | directory
  | text (content : Text)
  /-- A file whose bytes are no text. -/
  | binary
deriving DecidableEq

/-- The names on the way to an entry. -/
abbrev Location := List Text

/-- The entries of a file system. -/
abbrev Disk := List (Location × Entry)

/-- Where a path leads. -/
structure Place where
  /-- The directory before the last step; after it, if that is no name. -/
  directory : Location
  /-- The last step, if it is a name. -/
  name : Option Text
  /-- Whether only a directory can stand there. -/
  slash : Bool
deriving DecidableEq

/-- The location of a place. -/
def Place.location (w : Place) : Location := w.directory ++ w.name.toList

namespace Disk

/-- The entry at a location. -/
def entryAt? (d : Disk) (l : Location) : Option Entry :=
  if l.isEmpty then some .directory else (d.find? fun e => e.1 == l).map Prod.snd

/-- What a name stands for in a directory. -/
def member? (d : Disk) (directory : Location) (name : Text) :
    Except StorageError (Option Entry) :=
  if Path.nameLimit < name.width then .error .nameTooLong
  else .ok (d.entryAt? (directory ++ [name]))

/-- The directory to which a step leads from another. -/
def step (d : Disk) (l : Location) (name : Text) : Except StorageError Location := do
  if name = ['.'] then return l
  if name = ['.', '.'] then return l.dropLast
  match ← d.member? l name with
  | some .directory => return l ++ [name]
  | some _ => throw .notADirectory
  | none => throw .notFound

/-- Walks a path up to its last step. -/
def locate (d : Disk) (p : Path) : Except StorageError Place := do
  if p.contains '\x00' then throw .nullInPath
  if Path.widthLimit < p.width then throw .nameTooLong
  match p.steps.getLast? with
  | none => if p.isEmpty then throw .notFound else return ⟨[], none, true⟩
  | some last =>
    let directory ← p.steps.dropLast.foldlM d.step []
    if last = ['.'] ∨ last = ['.', '.'] then
      return ⟨← d.step directory last, none, p.endsInSlash⟩
    else return ⟨directory, some last, p.endsInSlash⟩

/-- The entry at a place. -/
def lookUp (d : Disk) (w : Place) : Except StorageError (Option Entry) :=
  match w.name with
  | none => .ok (some .directory)
  | some name => d.member? w.directory name

/-- The entry to which a path leads. -/
def reach (d : Disk) (p : Path) : Except StorageError (Option Entry) := do
  let w ← d.locate p
  match ← d.lookUp w with
  | some .directory => return some .directory
  | some e => if w.slash then throw .notADirectory else return some e
  | none => return none

/-- The disk with an entry at a location. -/
def put (d : Disk) (l : Location) (e : Entry) : Disk := d.filter (fun old => old.1 != l) ++ [(l, e)]

/-- Whether a location is another or below it. -/
def within (above l : Location) : Bool := above.isPrefixOf l

/-- The disk without a location and all below it. -/
def without (d : Disk) (l : Location) : Disk := d.filter fun e => !within l e.1

/-- Whether a path leads to an entry. -/
def isPresent (d : Disk) (p : Path) : Bool :=
  match d.reach p with
  | .ok (some _) => true
  | _ => false

/-- Whether a path leads to a directory. -/
def isDirectory (d : Disk) (p : Path) : Bool :=
  match d.reach p with
  | .ok (some .directory) => true
  | _ => false

/-- The text of a file. -/
def read (d : Disk) (p : Path) : Except StorageError Text := do
  match ← d.reach p with
  | some (.text content) => return content
  | some .binary => throw .notText
  | some .directory => throw .isADirectory
  | none => throw .notFound

/-- Gives a file a text. -/
def write (d : Disk) (p : Path) (content : Text) : Except StorageError Disk := do
  let w ← d.locate p
  if w.slash then throw .isADirectory
  match ← d.lookUp w with
  | some .directory => throw .isADirectory
  | _ => return d.put w.location (.text content)

/-- Makes a directory. -/
def createDirectory (d : Disk) (p : Path) : Except StorageError Disk := do
  let w ← d.locate p
  match ← d.lookUp w with
  | some _ => throw .alreadyExists
  | none => return d.put w.location .directory

/-- Makes a directory unless it is there. -/
def ensureDirectory (d : Disk) (p : Path) : Except StorageError Disk :=
  match d.createDirectory p with
  | .ok d => .ok d
  | .error e => if d.isDirectory p then .ok d else .error e

/-- Makes the first directory of a list; if the way to it is missing, makes the next one of the
list before it.  What was made stays there after a failure. -/
def createUpward (d : Disk) : List Path → Except StorageError Unit × Disk
  | [] => (.ok (), d)
  | p :: above =>
    match d.ensureDirectory p with
    | .ok d => (.ok (), d)
    | .error .notFound =>
      match d.createUpward above with
      | (.error e, d) => (.error e, d)
      | (.ok (), d) =>
        match d.ensureDirectory p with
        | .ok d => (.ok (), d)
        | .error e => (.error e, d)
    | .error e => (.error e, d)

/-- Makes a directory and those on the way to it. -/
def createDirectories (d : Disk) (p : Path) : Except StorageError Unit × Disk :=
  if p.isEmpty then (.ok (), d) else d.createUpward (p :: p.above)

/-- Removes a directory and all in it. -/
def removeTree (d : Disk) (p : Path) : Except StorageError Disk := do
  let w ← d.locate p
  match ← d.lookUp w with
  | none => throw .notFound
  | some .directory => if w.name.isNone then throw .invalidArgument else return d.without w.location
  | some _ => throw .notADirectory

/-- The disk with a location, and all below it, moved to another. -/
def move (d : Disk) (source target : Location) : Disk :=
  (d.filter fun e => within source e.1 || !within target e.1).map fun (l, e) =>
    if within source l then (target ++ l.drop source.length, e) else (l, e)

/-- Whether there is no entry below a location. -/
def isBare (d : Disk) (l : Location) : Bool := d.all fun e => e.1 == l || !within l e.1

/-- Moves a directory to a location at which an entry may stand. -/
def moveDirectory (d : Disk) (source target : Location) :
    Option Entry → Except StorageError Disk
  | none => if within source target then .error .invalidArgument else .ok (d.move source target)
  | some .directory =>
    if source == target then .ok d
    else if within source target then .error .invalidArgument
    else if d.isBare target then .ok (d.move source target)
    else .error .notEmpty
  | some _ => .error .notADirectory

/-- Moves a file to a location at which an entry may stand. -/
def moveFile (d : Disk) (source target : Location) : Option Entry → Except StorageError Disk
  | some .directory => .error .isADirectory
  | _ => if source == target then .ok d else .ok (d.move source target)

/-- Moves an entry. -/
def rename (d : Disk) (source target : Path) : Except StorageError Disk := do
  let origin ← d.locate source
  let goal ← d.locate target
  if origin.name.isNone || goal.name.isNone then throw .busy
  match ← d.lookUp origin with
  | none => throw .notFound
  | some .directory => d.moveDirectory origin.location goal.location (← d.lookUp goal)
  | some _ =>
    let found ← d.lookUp goal
    if origin.slash || goal.slash then throw .notADirectory
    else d.moveFile origin.location goal.location found

end Disk

/-- A call on a file system that can be at fault. -/
inductive Call where
  | isPresent (p : Path)
  | read (p : Path)
  | write (p : Path) (content : Text)
  | createDirectory (p : Path)
  | createDirectories (p : Path)
  | removeTree (p : Path)
  | rename (source target : Path)
deriving DecidableEq

/-- A disk in use. -/
structure Session where
  disk : Disk
  /-- The calls so far, the last one first. -/
  calls : List Call
  /-- What makes a call fail after the calls before it, if anything does. -/
  fault : List Call → Call → Option StorageError

namespace Session

/-- A session without faults. -/
def ofDisk (d : Disk) : Session := ⟨d, [], fun _ _ => none⟩

/-- Makes a call: it fails if it is at fault, else it runs. -/
def call {α : Type} (c : Call) (action : Disk → Except StorageError α × Disk) :
    StateM Session (Except StorageError α) := fun s =>
  match s.fault s.calls c with
  | some e => (.error e, { s with calls := c :: s.calls })
  | none =>
    let (result, d) := action s.disk
    (result, { s with disk := d, calls := c :: s.calls })

/-- Makes a call for its answer. -/
def query {α : Type} (c : Call) (action : Disk → Except StorageError α) :
    StateM Session (Except StorageError α) := call c fun d => (action d, d)

/-- Makes a call for its effect. -/
def change (c : Call) (action : Disk → Except StorageError Disk) :
    StateM Session (Except StorageError Unit) :=
  call c fun d =>
    match action d with
    | .ok d => (.ok (), d)
    | .error e => (.error e, d)

/-- Looks whether a path leads to an entry; a look that fails finds none. -/
def look (p : Path) : StateM Session Bool := do
  match ← query (.isPresent p) fun d => .ok (d.isPresent p) with
  | .ok there => return there
  | .error _ => return false

instance : Storage (StateM Session) where
  isPresent p := look p
  read p := query (.read p) fun d => d.read p
  write p content := change (.write p content) fun d => d.write p content
  createDirectory p := change (.createDirectory p) fun d => d.createDirectory p
  createDirectories p := call (.createDirectories p) fun d => d.createDirectories p
  removeTree p := change (.removeTree p) fun d => d.removeTree p
  rename p q := change (.rename p q) fun d => d.rename p q

end Session

end SharpMutants
