import Classlet.Memory.Class

/-! # Copies of struct values

An instance of a struct is copied when it is bound to a name or a field, appended to a list, put
into one at an index, or written as an element of a display.  The copy has fields of its own, and
fields that hold struct values are copied with it; lists and class instances met on the way are
shared. -/

namespace Classlet.Memory

/-- Copy the values of fields with a rule for values. -/
def copyFields (copy : Memory → Value → Value × Memory) (m : Memory) :
    Bindings Value → Bindings Value × Memory
  | [] => ([], m)
  | (name, v) :: more =>
    let (w, m) := copy m v
    let (fields, m) := copyFields copy m more
    ((name, w) :: fields, m)

/-- A new instance of the class of another one, with copies of its fields. -/
def copyInstance (copy : Memory → Value → Value × Memory) (m : Memory) (i : InstanceRef) :
    InstanceRef × Memory :=
  let (fields, m) := copyFields copy m (m.fields i)
  ({ i with index := m.instances.size }, m.pushInstance fields)

/-- Copy a value if it is a struct value, going at most `fuel` deep. -/
def copyAt : Nat → Memory → Value → Value × Memory
  | 0, m, v => (v, m)
  | fuel + 1, m, v =>
    match v with
    | .instance i =>
      if i.isStruct then
        let (j, m) := m.copyInstance (copyAt fuel) i
        (.instance j, m)
      else (v, m)
    | _ => (v, m)

/-- The value that is bound when `v` is bound: a copy of a struct value, and `v` itself otherwise.
Struct values nest without cycles, so that their depth is at most the number of instances. -/
def copyForBinding (m : Memory) (v : Value) : Value × Memory :=
  if v.isStruct then copyAt (m.instances.size + 1) m v else (v, m)

/-- Bind a field of an instance to what binding `v` gives, if there is such an instance. -/
def bindField (m : Memory) (i : InstanceRef) (name : String) (v : Value) : Memory :=
  if i.index < m.instances.size then
    let (w, m) := m.copyForBinding v
    m.setField i name w
  else m

/-- A copy of an instance of any class, with fields of its own. -/
def duplicate (m : Memory) (i : InstanceRef) : InstanceRef × Memory :=
  m.copyInstance copyForBinding i

end Classlet.Memory
