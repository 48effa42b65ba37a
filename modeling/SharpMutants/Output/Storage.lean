import SharpMutants.Text

/-!
# Storage

The calls that a job makes on a file system.  A call may fail; `Storage` names the
calls for whatever carries them out.  A path is text with slashes; its steps are
the parts between them, and a path with a slash in front starts afresh when it is
joined to another.  A step is a name, or one dot for staying, or two dots for
going back up.  Names and paths are limited in width, and no path holds the null
character.
-/

namespace SharpMutants

/-- Where an entry of a file system stands. -/
abbrev Path := Text

namespace Path

/-- The path of an entry of a directory. -/
def join (directory entry : Path) : Path :=
  if entry.head? = some '/' ∨ directory.isEmpty then entry
  else if directory.getLast? = some '/' then directory ++ entry
  else directory ++ '/' :: entry

/-- The parts of a text between slashes, after the part of a name that is already read. -/
def partsAfter (read : Text) : Path → List Text
  | [] => [read]
  | c :: cs => if c = '/' then read :: partsAfter [] cs else partsAfter (read ++ [c]) cs

/-- The steps of a path: its parts that are not empty. -/
def steps (p : Path) : List Text := (partsAfter [] p).filter fun part => !part.isEmpty

/-- The steps of a path but for those that stay where they are. -/
def names (p : Path) : List Text := p.steps.filter fun step => step != ['.']

/-- Whether a path ends in a slash, so that only a directory can stand there. -/
def endsInSlash (p : Path) : Bool := p.getLast? = some '/'

/-- The paths to the directories above, the nearest first. -/
def above (p : Path) : List Path :=
  (List.range' 1 (p.names.length - 1)).reverse.map fun n => ['/'].intercalate (p.names.take n)

/-- The largest width of a name. -/
def nameLimit : Nat := 255

/-- The largest width of a path. -/
def widthLimit : Nat := 4095

/-- What follows the last dot of a name, unless the name begins with it. -/
def extensionOf? (name : Text) : Option Text :=
  let ext := (name.reverse.takeWhile (· != '.')).reverse
  if name = ['.', '.'] then none
  else if ext.length + 1 < name.length then some ext
  else none

/-- The extension of the last name of a path. -/
def extension? (p : Path) : Option Text := p.names.getLast?.bind extensionOf?

/-- The text of a path. -/
def render (p : Path) : String := String.ofList p

end Path

/-- Why a call on a file system fails. -/
inductive StorageError where
  | notFound
  | alreadyExists
  | notADirectory
  | isADirectory
  | invalidArgument
  | notEmpty
  | busy
  | nameTooLong
  /-- A path holds the null character. -/
  | nullInPath
  /-- The bytes of a file are no text. -/
  | notText
  | other (message : String)
deriving DecidableEq

/-- The failure in words. -/
def StorageError.message : StorageError → String
  | notFound => "No such file or directory (os error 2)"
  | alreadyExists => "File exists (os error 17)"
  | notADirectory => "Not a directory (os error 20)"
  | isADirectory => "Is a directory (os error 21)"
  | invalidArgument => "Invalid argument (os error 22)"
  | notEmpty => "Directory not empty (os error 39)"
  | busy => "Device or resource busy (os error 16)"
  | nameTooLong => "File name too long (os error 36)"
  | nullInPath => "file name contained an unexpected NUL byte"
  | notText => "stream did not contain valid UTF-8"
  | other message => message

/-- The calls on a file system. -/
class Storage (m : Type → Type) where
  /-- Whether a path leads to an entry. -/
  isPresent : Path → m Bool
  /-- The text of a file. -/
  read : Path → m (Except StorageError Text)
  /-- Gives a file a text; makes the file if there is none. -/
  write : Path → Text → m (Except StorageError Unit)
  /-- Makes a directory. -/
  createDirectory : Path → m (Except StorageError Unit)
  /-- Makes a directory, and those on the way to it, where they are missing. -/
  createDirectories : Path → m (Except StorageError Unit)
  /-- Removes a directory and all in it. -/
  removeTree : Path → m (Except StorageError Unit)
  /-- Moves an entry; an empty directory in its way gives way to a directory. -/
  rename : Path → Path → m (Except StorageError Unit)

end SharpMutants
