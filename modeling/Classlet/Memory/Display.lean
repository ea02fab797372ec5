import Classlet.Memory.Class
import Classlet.Numeral.Format
import Classlet.Syntax.Print

/-! # The texts of values

`Memory.display` is the text of a value and `Memory.quoted` the same with texts in quotes; no
user code is run.  Elements of lists and tuples are always quoted.

A list is a reference, so the text of a value follows references into memory.  Lists that nest
without cycles nest at most as deep as there are lists, which bounds the walk. -/

namespace Classlet

def Builtin.name : Builtin → String
  | print => "print"
  | len => "len"
  | repr => "repr"
  | type => "type"
  | isinstance => "isinstance"
  | assert => "assert"
  | append => "append"

def builtinText (name : String) : String := "<native fn " ++ name ++ ">"

namespace Memory

variable (m : Memory)

def classText (c : ClassRef) : String := "<class " ++ m.className c ++ ">"

def classSummary (c : ClassRef) : String :=
  let info := m.classInfo c
  let base := info.base.elim "None" fun b => "Some(" ++ Text.quote (m.className b) ++ ")"
  "Class \x7b name: " ++ Text.quote info.name ++ ", base: " ++ base ++ ", value_type: " ++
    boolText info.isStruct ++ " \x7d"

def instanceText (i : InstanceRef) : String :=
  "<" ++ m.className i.ofClass ++ " instance>"

def moduleText (r : ModuleRef) : String := "<module " ++ (m.moduleInfo r).name ++ ">"

/-- The data of a module in one line. -/
def moduleSummary (r : ModuleRef) : String :=
  let d := m.moduleInfo r
  let parent := d.parent.elim "None" fun p =>
    "Some(" ++ Text.quote (m.moduleInfo p).path.text ++ ")"
  "Module \x7b name: " ++ Text.quote d.name ++ ", path: " ++
    Text.quote d.path.text ++ ", parent: " ++ parent ++ " \x7d"

def methodText (r : MethodRef) : String :=
  match m.method? r with
  | some b =>
    let name := match b.method with
      | .function f => m.functionName f
      | .builtin f => builtinText f.name
    "<bound method " ++ m.typeName b.receiver ++ "." ++ name ++ ">"
  | none => ""

/-- The text of a value inside of another one, given its text on its own. -/
def quotedIf (v : Value) (shown : String) : String :=
  match v with
  | .str s => Text.quote s
  | _ => shown

mutual

/-- The text of a value, given the texts of the elements of a list. -/
def displayWith (inside : Array Value → List String) : Value → String
  | .nil => "nil"
  | .bool b => boolText b
  | .int n => Numeral.ofInt n.toInt
  | .real x => Numeral.display x
  | .str s => s
  | .list l => "[" ++ Text.commas (inside (m.elements l)) ++ "]"
  | .tuple vs => Text.tuple (quotedAllWith inside vs)
  | .function f => "<fn " ++ m.functionName f ++ ">"
  | .method r => m.methodText r
  | .builtin f => builtinText f.name
  | .ofClass c => m.classText c
  | .instance i => m.instanceText i
  | .module r => m.moduleText r
termination_by structural v => v

def quotedAllWith (inside : Array Value → List String) : List Value → List String
  | [] => []
  | v :: vs => quotedIf v (displayWith inside v) :: quotedAllWith inside vs
termination_by structural vs => vs

end

/-- The quoted texts of the elements of a list, with lists nested at most `fuel` deep in it. -/
def insideAt : Nat → Array Value → List String
  | 0, _ => []
  | fuel + 1, vs => vs.toList.map fun v => quotedIf v (m.displayWith (insideAt fuel) v)

def display (v : Value) : String := m.displayWith (m.insideAt (m.lists.size + 1)) v

/-- The text of a value, in quotes if it is a text. -/
def quoted (v : Value) : String := quotedIf v (m.display v)

/-- The text of the field `message` of an exception. -/
def messageOf (i : InstanceRef) : String :=
  match m.field? i "message" with
  | none | some .nil => ""
  | some v => m.display v

/-! ### Errors -/

def raisedClassName : Raised → String
  | .cause c => c.kind.name
  | .thrown i => m.className i.ofClass

def raisedMessage : Raised → String
  | .cause c => c.message
  | .thrown i => m.messageOf i

def raisedText (r : Raised) : String :=
  let text := m.raisedMessage r
  if text.isEmpty then m.raisedClassName r else m.raisedClassName r ++ ": " ++ text

/-- The trace of an error, the most recent call last, and then the error itself. -/
def traceback (e : RuntimeError) : String :=
  let lines := e.trace.reverse.map fun f => f.describe ++ "\n"
  let header := if e.trace.isEmpty then "" else "Traceback (most recent call last):\n"
  header ++ Text.join "" lines ++ m.raisedText e.raised

end Memory

end Classlet
