import Classlet.Memory.Class

/-! # Exports

A module exports the names of its top level.  If it binds the name `exports`, that is a list or a
tuple of the names to be exported; every name in it has to be bound, and can be listed once. -/

namespace Classlet

/-- The name under which a module lists its exports. -/
def exportsName : String := "exports"

/-- The names listed under `exports`. -/
def exportEntries (m : Memory) : Value → Except Cause (List Value)
  | .list l => .ok (m.elements l).toList
  | .tuple vs => .ok vs
  | v => .error (.exportsType (m.typeName v))

/-- The bindings of listed names, which are taken out of `b` one by one. -/
def selectExports (m : Memory) (b exported : Bindings Value) :
    List Value → Except Cause (Bindings Value)
  | [] => .ok exported
  | .str name :: more =>
    match b.get? name with
    | some v => selectExports m (b.erase name) (exported.insert name v) more
    | none => .error (.undefinedExport name)
  | v :: _ => .error (.exportEntryType (m.typeName v))

/-- The exports of a module with these bindings at its top level. -/
def computeExports (m : Memory) (b : Bindings Value) : Except Cause (Bindings Value) :=
  match b.get? exportsName with
  | none => .ok b
  | some v =>
    match exportEntries m v with
    | .ok entries => selectExports m b [] entries
    | .error c => .error c

end Classlet
