import Classlet.Scope.Arena
import Classlet.Bindings

/-! # Values

The values of the language.  Numbers, texts and tuples are themselves; everything that has an
identity or can change (lists, functions, bound methods, classes, instances and modules) is a
reference into memory, so that two values are identical exactly when their references are equal. -/

namespace Classlet

/-- A reference to a list. -/
structure ListRef where
  index : Nat
  deriving Repr, DecidableEq

/-- A reference to a user function. -/
structure FunctionRef where
  index : Nat
  deriving Repr, DecidableEq

/-- A reference to a function bound to its receiver. -/
structure MethodRef where
  index : Nat
  deriving Repr, DecidableEq

/-- A reference to a class. -/
structure ClassRef where
  index : Nat
  deriving Repr, DecidableEq

/-- A reference to an instance.  It knows the class of the instance, which never changes. -/
structure InstanceRef where
  index : Nat
  ofClass : ClassRef
  /-- Whether the class is a struct, so that the instance is copied when it is bound. -/
  isStruct : Bool
  deriving Repr, DecidableEq

/-- A reference to a module. -/
structure ModuleRef where
  index : Nat
  deriving Repr, DecidableEq

/-- The functions that the language brings along. -/
inductive Builtin where
  | print
  | len
  | repr
  | type
  | isinstance
  | assert
  | append
  deriving Repr, DecidableEq

/-- The values of the language. -/
inductive Value where
  | nil
  | bool (b : Bool)
  | int (n : Int64)
  | real (x : Float)
  | str (s : String)
  | list (ref : ListRef)
  | tuple (elements : List Value)
  | function (ref : FunctionRef)
  | method (ref : MethodRef)
  | builtin (f : Builtin)
  | ofClass (ref : ClassRef)
  | instance (ref : InstanceRef)
  | module (ref : ModuleRef)
  deriving Repr, Inhabited

/-- Keyword arguments of a call, in source order. -/
abbrev KeywordValues := List (String × Value)

namespace Value

def isNil : Value → Bool
  | nil => true
  | _ => false

/-- Whether a value is an instance of a class whose instances are copied. -/
def isStruct : Value → Bool
  | «instance» i => i.isStruct
  | _ => false

/-- Whether a value is a function of any kind. -/
def isFunction : Value → Bool
  | function _ | method _ | builtin _ => true
  | _ => false

/-- Whether two values have the same class. -/
def sameClass : Value → Value → Bool
  | «instance» i, «instance» j => i.ofClass = j.ofClass
  | nil, nil | bool _, bool _ | int _, int _ | real _, real _ | str _, str _ | list _, list _
  | tuple _, tuple _ | ofClass _, ofClass _ | module _, module _ => true
  | v, w => v.isFunction && w.isFunction

end Value

end Classlet
