import Classlet.Source

/-! # Trees of files

A tree of files below a current directory.  A path is walked part by part: every part but the
last has to be a directory, and so has the last one if an empty part or a dot follows it.
Directories above the current one are known to be there, but nothing is known to be in them.
A name in a directory has at most 255 bytes and a whole path fewer than 4096. -/

namespace Classlet

/-- Files by the names on the way to them. -/
structure FileTree where
  files : List (List String × String) := []
  deriving Repr, Inhabited

/-- Why a file cannot be read. -/
inductive ReadFailure where
  | missing
  | forbidden
  | notADirectory
  | isADirectory
  | tooLong
  | invalidName
  deriving Repr, DecidableEq

def ReadFailure.message : ReadFailure → String
  | missing => "No such file or directory (os error 2)"
  | forbidden => "Permission denied (os error 13)"
  | notADirectory => "Not a directory (os error 20)"
  | isADirectory => "Is a directory (os error 21)"
  | tooLong => "File name too long (os error 36)"
  | invalidName => "file name contained an unexpected NUL byte"

namespace FileTree

/-- The parts of a text between its slashes that name something. -/
def names (text : String) : List String :=
  ((Path.splitSlashes text.toList).filter fun part => !Path.isSkipped part).map String.ofList

/-- Put a file at a path, in the place of what was there. -/
def add (t : FileTree) (path content : String) : FileTree :=
  { files := (names path, content) :: t.files.filter fun entry => entry.1 ≠ names path }

/-- Where a walk has come to. -/
inductive Place where
  /-- A directory of the tree. -/
  | directory (path : List String)
  /-- A directory that is not in the tree. -/
  | outside
  | file (content : String)
  deriving Repr, DecidableEq

def file? (t : FileTree) (path : List String) : Option String :=
  (t.files.find? fun entry => entry.1 = path).map (·.2)

/-- Whether some file is below a list of names. -/
def isDirectory (t : FileTree) (path : List String) : Bool :=
  t.files.any fun entry => path.isPrefixOf entry.1 && entry.1 != path

/-- The greatest number of bytes of a name in a directory. -/
def nameLimit : Nat := 255

/-- The greatest number of bytes of a path. -/
def pathLimit : Nat := 4095

/-- What a name stands for in a directory of the tree. -/
def lookup (t : FileTree) (path : List String) (name : String) : Except ReadFailure Place :=
  let next := path ++ [name]
  match t.file? next with
  | some content => .ok (.file content)
  | none => if t.isDirectory next then .ok (.directory next) else .error .missing

/-- Go from a place along one part of a path. -/
def step (t : FileTree) (place : Place) (part : List Char) : Except ReadFailure Place :=
  let name := String.ofList part
  match place with
  | .file _ => .error .notADirectory
  | .outside =>
    if Path.isSkipped part || part = ['.', '.'] then .ok .outside
    else if nameLimit < name.utf8ByteSize then .error .tooLong
    else .error .missing
  | .directory path =>
    if Path.isSkipped part then .ok (.directory path)
    else if part = ['.', '.'] then
      if path.isEmpty then .ok .outside else .ok (.directory path.dropLast)
    else if nameLimit < name.utf8ByteSize then .error .tooLong
    else t.lookup path name

/-- Go from a place along parts of a path. -/
def walk (t : FileTree) : Place → List (List Char) → Except ReadFailure Place
  | place, [] => .ok place
  | place, part :: more =>
    match t.step place part with
    | .ok next => t.walk next more
    | .error failure => .error failure

/-- The content of the file at a path. -/
def read (t : FileTree) (p : Path) : Except ReadFailure String :=
  let start : Place := if p.isAbsolute then .outside else .directory []
  if p.text.isEmpty then .error .missing
  else if p.text.toList.contains '\x00' then .error .invalidName
  else if pathLimit < p.text.utf8ByteSize then .error .tooLong
  else
    match t.walk start (Path.splitSlashes p.text.toList) with
    | .ok (.file content) => .ok content
    | .ok _ => .error .isADirectory
    | .error failure => .error failure

def loader (t : FileTree) : Loader := fun p =>
  match t.read p with
  | .ok content => .text content
  | .error failure => .failure failure.message

end FileTree

end Classlet
