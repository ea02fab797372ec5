import Classlet.Memory

/-! # Classes

The class chain of a class is the class itself, its base, the base of that, and so on.  It
answers every question about classes: `Memory.isA` and `Memory.isBaseOf` look for a class in it,
and attributes and constructions are those of the first class in it that has one.

The built-in classes come first in memory, in a fixed order; `Error` is the base of the other
error classes.  A program can derive from its own classes and from error classes only. -/

namespace Classlet

/-! ### The built-in classes -/

namespace ClassRef

def nil : ClassRef := ⟨0⟩
def bool : ClassRef := ⟨1⟩
def int : ClassRef := ⟨2⟩
def real : ClassRef := ⟨3⟩
def str : ClassRef := ⟨4⟩
def list : ClassRef := ⟨5⟩
def tuple : ClassRef := ⟨6⟩
/-- The class of functions of all kinds. -/
def function : ClassRef := ⟨7⟩
def ofClasses : ClassRef := ⟨8⟩
def module : ClassRef := ⟨9⟩
/-- The base of all error classes. -/
def error : ClassRef := ⟨10⟩

end ClassRef

def Value.classRef : Value → ClassRef
  | .nil => .nil
  | .bool _ => .bool
  | .int _ => .int
  | .real _ => .real
  | .str _ => .str
  | .list _ => .list
  | .tuple _ => .tuple
  | .function _ | .method _ | .builtin _ => .function
  | .ofClass _ => .ofClasses
  | .instance i => i.ofClass
  | .module _ => .module

def ErrorKind.classRef (k : ErrorKind) : ClassRef := ⟨10 + ErrorKind.all.idxOf k⟩

/-- The built-in classes that are no error classes. -/
def plainClasses : List ClassInfo :=
  [ { name := "nil", isStruct := true, isBuiltin := true },
    { name := "bool", construction := some .bool, isStruct := true, isBuiltin := true },
    { name := "int", construction := some .int, isStruct := true, isBuiltin := true },
    { name := "real", construction := some .real, isStruct := true, isBuiltin := true },
    { name := "str", construction := some .str, isStruct := true, isBuiltin := true },
    { name := "list", construction := some .list, isBuiltin := true },
    { name := "tuple", construction := some .tuple, isStruct := true, isBuiltin := true },
    { name := "function", isBuiltin := true },
    { name := "class", isBuiltin := true },
    { name := "module", isBuiltin := true } ]

/-- The class of an error kind, as it stands in memory. -/
def ErrorKind.classInfo (k : ErrorKind) : ClassInfo :=
  if k = .error then { name := k.name, construction := some .error, isBuiltin := true }
  else { name := k.name, base := some .error, isBuiltin := true }

namespace Memory

/-- Memory that holds the built-in classes and nothing else. -/
def initial : Memory :=
  { classes := (plainClasses ++ ErrorKind.all.map ErrorKind.classInfo).toArray }

/-! ### The class chain -/

/-- The class chain from `c` on, at most `fuel` classes of it. -/
def chainFrom (m : Memory) : Nat → ClassRef → List ClassRef
  | 0, _ => []
  | fuel + 1, c => c :: ((m.classInfo c).base.elim [] (chainFrom m fuel))

/-- The class chain.  A base is older than what derives from it, which bounds the length. -/
def chain (m : Memory) (c : ClassRef) : List ClassRef := m.chainFrom (c.index + 1) c

/-- Whether `c` is `d` or derives from it. -/
def isA (m : Memory) (c d : ClassRef) : Bool := (m.chain c).contains d

/-- Whether `c` stands strictly above `d`. -/
def isBaseOf (m : Memory) (c d : ClassRef) : Bool := (m.chain d).tail.contains c

/-- Whether a handler for `caught` takes an exception of class `raised`. -/
def shouldCatch (m : Memory) (raised caught : ClassRef) : Bool :=
  raised = caught || m.isBaseOf caught raised

def isErrorClass (m : Memory) (c : ClassRef) : Bool := m.isA c .error

/-- The attribute of the nearest class of the chain that has it. -/
def findAttribute? (m : Memory) (c : ClassRef) (name : String) : Option Value :=
  (m.chain c).findSome? fun d => (m.classInfo d).attributes.get? name

/-- The construction of the nearest class of the chain that has one. -/
def findConstruction? (m : Memory) (c : ClassRef) : Option Construction :=
  (m.chain c).findSome? fun d => (m.classInfo d).construction

/-- Make a class.  The built-in classes that are no error classes cannot be derived from. -/
def newClass (m : Memory) (name : String) (attributes : Bindings Value) (isStruct : Bool)
    (base : Option ClassRef) : Except Cause (ClassRef × Memory) :=
  match base with
  | some b =>
    if (m.classInfo b).isBuiltin && !m.isErrorClass b then
      .error (.builtinBase (m.classInfo b).name)
    else .ok (add (some b))
  | none => .ok (add none)
where
  /-- Put the class into memory. -/
  add (base : Option ClassRef) : ClassRef × Memory :=
    (⟨m.classes.size⟩, { m with
      classes := m.classes.push
        { name := name, attributes := attributes, base := base, isStruct := isStruct } })

/-- The built-in classes, which are bound as global names. -/
def globalClasses (m : Memory) : List ClassRef :=
  (List.range m.classes.size).map ClassRef.mk |>.filter fun c => (m.classInfo c).isBuiltin

/-! ### The classes of values -/

def className (m : Memory) (c : ClassRef) : String := (m.classInfo c).name

def typeName (m : Memory) : Value → String
  | .nil => "nil"
  | .bool _ => "bool"
  | .int _ => "int"
  | .real _ => "real"
  | .str _ => "str"
  | .list _ => "list"
  | .tuple _ => "tuple"
  | .function _ | .method _ | .builtin _ => "function"
  | .ofClass _ => "class"
  | .instance i => m.className i.ofClass
  | .module _ => "module"

/-- Whether a type accepts a class, for a function of the class `owner`. -/
def accepts (m : Memory) (spec : TypeSpec) (owner : Option ClassRef) (c : ClassRef) : Bool :=
  match spec with
  | .any => true
  | .ofClass expected => m.isA c expected
  | .owner _ => owner.any fun o => m.isA c o

def specText (m : Memory) : TypeSpec → String
  | .any => "nil"
  | .ofClass c => m.className c
  | .owner name => name

end Memory

end Classlet
