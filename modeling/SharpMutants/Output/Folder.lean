import SharpMutants.Output.Moment
import SharpMutants.Output.Storage

/-!
# Output folders

A folder is filled under a working name and gets its own name when it is
complete, so a folder with its own name is never half full.  If the name is
taken, a number is put after it.  A folder that is not completed is discarded.
-/

namespace SharpMutants

/-- Why a folder cannot be filled. -/
inductive FolderError where
  | creatingRoot (root : Path) (error : StorageError)
  | noFreeName (root : Path)
  | removingStale (path : Path) (error : StorageError)
  | creating (path : Path) (error : StorageError)
  | writing (path : Path) (error : StorageError)
  | completing (source target : Path) (error : StorageError)

/-- The failure in words. -/
def FolderError.message : FolderError → String
  | creatingRoot root error => "creating output directory " ++ root.render ++ ": " ++ error.message
  | noFreeName root => "no free output directory name under " ++ root.render
  | removingStale path error => "removing stale directory " ++ path.render ++ ": " ++ error.message
  | creating path error => "creating " ++ path.render ++ ": " ++ error.message
  | writing path error => "writing " ++ path.render ++ ": " ++ error.message
  | completing source target error =>
    "renaming " ++ source.render ++ " to " ++ target.render ++ ": " ++ error.message

/-- A folder that is being filled. -/
structure Folder where
  /-- The path under the working name. -/
  working : Path
  /-- The path under its own name. -/
  target : Path
deriving DecidableEq

namespace Folder

/-- The name of a folder for the output of a moment. -/
def nameFor (t : Moment) : Text := "Output-".toList ++ t.digits

/-- The name of the file of a mutant. -/
def mutantFile (index : Nat) : Text := "Mutant".toList ++ Nat.toDigits 10 index ++ ".cs".toList

/-- The names to try for a folder: its own, and the same with the numbers up to a hundred. -/
def candidates (name : Text) : List Text :=
  name :: (List.range' 1 100).map fun n => name ++ '-' :: Nat.toDigits 10 n

/-- What is put after the name of a folder that is being filled. -/
def workingSuffix : Text := ".partial".toList

variable {m : Type → Type} [Monad m] [Storage m]

/-- A call whose failure has a cause of its own. -/
def attempt {ε α : Type} (cause : StorageError → ε) (action : m (Except StorageError α)) :
    ExceptT ε m α := do
  match ← ExceptT.lift action with
  | .ok a => return a
  | .error e => throw (cause e)

/-- The path of the first name of a list that is not taken. -/
def free? (root : Path) : List Text → m (Option Path)
  | [] => return none
  | name :: rest => do
    let path := root.join name
    if ← Storage.isPresent path then free? root rest else return some path

/-- Removes what is left from an earlier folder of the same working name. -/
def removeStale (working : Path) : ExceptT FolderError m Unit := do
  if ← ExceptT.lift (Storage.isPresent working) then
    attempt (.removingStale working) (Storage.removeTree working)

/-- Begins a folder under a root. -/
def create (root : Path) (name : Text) : ExceptT FolderError m Folder := do
  attempt (.creatingRoot root) (Storage.createDirectories root)
  match ← ExceptT.lift (free? root (candidates name)) with
  | none => throw (.noFreeName root)
  | some target =>
    let working := target ++ workingSuffix
    removeStale working
    attempt (.creating working) (Storage.createDirectory working)
    return ⟨working, target⟩

/-- Puts a file into a folder. -/
def write (f : Folder) (name content : Text) : ExceptT FolderError m Path := do
  let path := f.working.join name
  attempt (.writing path) (Storage.write path content)
  return path

/-- Gives a folder up, with all that was put into it. -/
def discard (f : Folder) : m Unit := do
  let _ ← Storage.removeTree f.working

/-- Completes a folder; one that cannot be completed is discarded. -/
def commit (f : Folder) : ExceptT FolderError m Path := do
  match ← ExceptT.lift (Storage.rename f.working f.target) with
  | .ok () => return f.target
  | .error e =>
    ExceptT.lift f.discard
    throw (.completing f.working f.target e)

end Folder

end SharpMutants
