/-! # Paths

A path is a text in which slashes separate names.  `Path.components` reads it as the steps of a
walk: to the root, to the current directory, up, or into a name.  Empty parts and `.` behind the
start are no steps.  Two paths with the same components are the same path (`Path.Same`), whatever
their texts.

* `Path.push` appends a path; an absolute one replaces what was there.
* `Path.parent?`, `Path.fileName?`, `Path.stem?` and `Path.extension?` take the last component
  apart; the text in front of it is kept as it is.
* `Path.normalize` walks the path on paper: it drops `.` and folds `..` into the name before it. -/

namespace Classlet

/-- A path, by its text. -/
structure Path where
  text : String
  deriving Repr, DecidableEq, Inhabited

namespace Path

/-- One step of a path. -/
inductive Component where
  | root
  | current
  | up
  | name (s : String)
  deriving Repr, DecidableEq

/-- The parts of a text between its slashes. -/
def splitSlashes : List Char → List (List Char)
  | [] => [[]]
  | c :: cs =>
    if c = '/' then [] :: splitSlashes cs
    else
      match splitSlashes cs with
      | part :: more => (c :: part) :: more
      | [] => [[c]]

/-- Parts of a text with slashes between them. -/
def joinSlashes : List (List Char) → List Char
  | [] => []
  | [part] => part
  | part :: more => part ++ '/' :: joinSlashes more

/-- Whether a part of a text is no step. -/
def isSkipped (part : List Char) : Bool := part = [] || part = ['.']

/-- The step that a part of a text stands for. -/
def Component.ofPart (part : List Char) : Component :=
  if part = ['.', '.'] then .up else .name (String.ofList part)

/-- How a path begins, and the parts behind that. -/
structure Shape where
  start : Option Component
  parts : List (List Char)
  deriving Repr

/-- The shape of a text: it begins at the root, with a dot that stands alone, or with a part. -/
def Shape.ofText : List Char → Shape
  | '/' :: cs => ⟨some .root, splitSlashes cs⟩
  | ['.'] => ⟨some .current, []⟩
  | '.' :: '/' :: cs => ⟨some .current, splitSlashes ('/' :: cs)⟩
  | cs => ⟨none, splitSlashes cs⟩

def shape (p : Path) : Shape := Shape.ofText p.text.toList

def Shape.text (s : Shape) : List Char :=
  match s.start with
  | some .root => '/' :: joinSlashes s.parts
  | some .current => '.' :: joinSlashes s.parts
  | _ => joinSlashes s.parts

def components (p : Path) : List Component :=
  p.shape.start.toList ++ (p.shape.parts.filter fun part => !isSkipped part).map Component.ofPart

/-- Whether two paths have the same steps. -/
def Same (p q : Path) : Prop := p.components = q.components

instance (p q : Path) : Decidable (Same p q) := inferInstanceAs (Decidable (_ = _))

/-- Whether a path begins at the root. -/
def isAbsolute (p : Path) : Bool := p.text.toList.head? == some '/'

/-- Append a path; an absolute one replaces what was there. -/
def push (p q : Path) : Path :=
  if q.isAbsolute then q
  else if p.text.isEmpty || p.text.toList.getLast? == some '/' then ⟨p.text ++ q.text⟩
  else ⟨p.text ++ "/" ++ q.text⟩

/-- Drop the parts at the end that are no steps. -/
def dropSkipped (parts : List (List Char)) : List (List Char) :=
  (parts.reverse.dropWhile isSkipped).reverse

/-- The path without its last step.  The root and the empty path have none. -/
def parent? (p : Path) : Option Path :=
  let s := p.shape
  match (dropSkipped s.parts).reverse with
  | _ :: before =>
    some ⟨String.ofList ({ s with parts := dropSkipped before.reverse } : Shape).text⟩
  | [] => if s.start = some .current then some ⟨""⟩ else none

def fileName? (p : Path) : Option String :=
  match p.components.getLast? with
  | some (.name s) => some s
  | _ => none

/-- A name split at its last dot, unless the dot comes first: the part before it, if there is one,
and the part behind it. -/
def splitAtDot (name : String) : Option String × Option String :=
  let cs := name.toList.reverse
  let after := (cs.takeWhile (· != '.')).reverse
  match cs.dropWhile (· != '.') with
  | [] => (none, some (String.ofList after))
  | [_] => (some name, none)
  | _ :: before => (some (String.ofList before.reverse), some (String.ofList after))

/-- The name that a path ends in, without its extension. -/
def stem? (p : Path) : Option String :=
  p.fileName?.bind fun name =>
    match splitAtDot name with
    | (some before, _) => some before
    | (none, after) => after

/-- The extension of the name that a path ends in. -/
def extension? (p : Path) : Option String :=
  p.fileName?.bind fun name =>
    match splitAtDot name with
    | (some _, after) => after
    | (none, _) => none

/-- Replace the name that a path ends in, or append one. -/
def setFileName (p : Path) (name : String) : Path :=
  match p.fileName? with
  | some _ => (p.parent?.getD ⟨""⟩).push ⟨name⟩
  | none => p.push ⟨name⟩

/-! ### Normal form -/

/-- One step of a walk on paper; the steps taken so far are listed last step first. -/
def fold (taken : List Component) (step : Component) : List Component :=
  match step with
  | .current => taken
  | .up =>
    match taken with
    | .name _ :: rest => rest
    | .root :: _ => taken
    | _ => .up :: taken
  | .root => [.root]
  | .name s => .name s :: taken

/-- The part of a text that a step is written as. -/
def Component.part : Component → List Char
  | .root => []
  | .current => ['.']
  | .up => ['.', '.']
  | .name s => s.toList

def textOf : List Component → List Char
  | .root :: more => '/' :: joinSlashes (more.map Component.part)
  | steps => joinSlashes (steps.map Component.part)

/-- The steps of a path without `.`, and with `..` folded into the name before it. -/
def normalSteps (p : Path) : List Component := (p.components.foldl fold []).reverse

/-- The normal form of a path, found without looking at any directory. -/
def normalize (p : Path) : Path := ⟨String.ofList (textOf p.normalSteps)⟩

end Path

end Classlet
