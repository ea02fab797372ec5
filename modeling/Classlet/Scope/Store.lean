import Classlet.Memory.Copy

/-! # Variables

A store is memory together with the scopes that refer to it.  Binding a name follows the rules of
the language: reserved words are not bound, struct values are copied, and `Store.assign` keeps
the class of a variable. -/

namespace Classlet

/-- Objects and variables. -/
structure Store where
  memory : Memory := {}
  scopes : Arena Value := {}
  deriving Inhabited

/-- Why a name is not bound. -/
inductive BindFault where
  | cause (c : Cause)
  | unbalanced (f : ScopeFault)

namespace Store

/-- The value of a name as seen from a context. -/
def lookup (s : Store) (c : ContextId) (name : String) : Except Cause Value :=
  match s.scopes.get? c name with
  | some v => .ok v
  | none => .error (.undefinedName name)

/-- Bind a name in a scope to what binding `v` gives. -/
def bindCopy (s : Store) (scope : ScopeId) (name : String) (v : Value) : Store :=
  let (w, memory) := s.memory.copyForBinding v
  { memory := memory, scopes := s.scopes.bind scope name w }

/-- Bind a name in a scope to `v` itself. -/
def bindShared (s : Store) (scope : ScopeId) (name : String) (v : Value) : Store :=
  { s with scopes := s.scopes.bind scope name v }

/-- The innermost scope of a context, as the place of a new variable. -/
def newPlace (s : Store) (c : ContextId) (name : String) : Except BindFault ScopeId :=
  if isReserved name then .error (.cause (.reservedName name))
  else
    match s.scopes.innermost c with
    | .ok scope => .ok scope
    | .error fault => .error (.unbalanced fault)

/-- The scope in which an assignment of `v` binds a name: the innermost of the context's own scopes
that has it, or the innermost one.  A name bound to something else than `nil` only takes values
of the same class. -/
def place (s : Store) (c : ContextId) (name : String) (v : Value) : Except BindFault ScopeId :=
  if isReserved name then .error (.cause (.reservedName name))
  else
    match s.scopes.binder? (s.scopes.context c).scopes name with
    | some scope =>
      let old := ((s.scopes.frame scope).values.get? name).getD .nil
      if !old.isNil && !old.sameClass v then
        .error (.cause (.classChange name (s.memory.typeName old) (s.memory.typeName v)))
      else .ok scope
    | none => s.newPlace c name

/-- Bind a name in the innermost scope of a context. -/
def define (s : Store) (c : ContextId) (name : String) (v : Value) : Except BindFault Store :=
  (s.newPlace c name).map fun scope => s.bindCopy scope name v

/-- Bind a name in the innermost scope of a context without copying: a receiver is the caller's. -/
def defineShared (s : Store) (c : ContextId) (name : String) (v : Value) : Except BindFault Store :=
  (s.newPlace c name).map fun scope => s.bindShared scope name v

/-- Rebind a name of a context, or bind it in the innermost scope. -/
def assign (s : Store) (c : ContextId) (name : String) (v : Value) : Except BindFault Store :=
  (s.place c name v).map fun scope => s.bindCopy scope name v

end Store

end Classlet
