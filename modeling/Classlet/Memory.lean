import Classlet.Failure

/-! # Memory

The objects that references stand for: classes, lists, instances, functions, bound methods and
modules.  Objects are only ever added; a list or an instance can change in place, a function
learns the class that owns it when that class comes into being, and a module gets its exports
when it has run. -/

namespace Classlet

/-- The ways in which a built-in class makes a value. -/
inductive Construction where
  | bool
  | int
  | real
  | str
  | list
  | tuple
  | error
  deriving Repr, DecidableEq

/-- A class. -/
structure ClassInfo where
  name : String
  attributes : Bindings Value := []
  base : Option ClassRef := none
  construction : Option Construction := none
  /-- Whether instances are copied when they are bound instead of shared. -/
  isStruct : Bool := false
  /-- Whether the language brings the class along. -/
  isBuiltin : Bool := false
  deriving Inhabited

/-- What a parameter or a result has to be. -/
inductive TypeSpec where
  | any
  | ofClass (ref : ClassRef)
  /-- The class whose body defines the function; it does not exist before the body has run. -/
  | owner (name : String)
  deriving Repr, DecidableEq

/-- A parameter whose class expression has been evaluated. -/
structure ParamSpec where
  name : String
  spec : TypeSpec
  variadic : Bool
  deriving Repr, DecidableEq

/-- A source text, kept so that stack traces can quote it. -/
structure SourceUnit where
  name : String
  source : Option String
  deriving Repr, DecidableEq, Inhabited

/-- A user function, lambda, method or operator. -/
structure Function where
  decl : FunctionDecl
  params : List ParamSpec
  /-- The classes of the results; a single `any` if none was given. -/
  returns : List TypeSpec
  /-- The frozen scopes of the place of definition. -/
  closure : ContextId
  /-- Where the function was defined. -/
  unit : SourceUnit
  /-- The class of which the function is a member. -/
  owner : Option ClassRef := none

/-- What can be bound to a receiver. -/
inductive Callable where
  | function (ref : FunctionRef)
  | builtin (f : Builtin)
  deriving Repr, DecidableEq

def Callable.toValue : Callable → Value
  | function ref => .function ref
  | builtin f => .builtin f

/-- A function looked up through an instance; the receiver becomes its first argument. -/
structure BoundMethod where
  receiver : Value
  method : Callable

/-- A module. -/
structure Module where
  name : String
  path : Path
  /-- The importing module. -/
  parent : Option ModuleRef
  /-- The context that holds the top-level scope. -/
  context : ContextId
  unit : SourceUnit
  exports : Bindings Value := []
  deriving Inhabited

/-- All objects. -/
structure Memory where
  classes : Array ClassInfo := #[]
  lists : Array (Array Value) := #[]
  /-- The fields of instances. -/
  instances : Array (Bindings Value) := #[]
  functions : Array Function := #[]
  methods : Array BoundMethod := #[]
  modules : Array Module := #[]
  deriving Inhabited

namespace Memory

/-! ### Looking up -/

def classInfo (m : Memory) (c : ClassRef) : ClassInfo := m.classes[c.index]?.getD default

def elements (m : Memory) (l : ListRef) : Array Value := m.lists[l.index]?.getD #[]

def fields (m : Memory) (i : InstanceRef) : Bindings Value := m.instances[i.index]?.getD []

def function? (m : Memory) (f : FunctionRef) : Option Function := m.functions[f.index]?

/-- The bound method behind a reference. -/
def method? (m : Memory) (r : MethodRef) : Option BoundMethod := m.methods[r.index]?

def moduleInfo (m : Memory) (r : ModuleRef) : Module := m.modules[r.index]?.getD default

def functionName (m : Memory) (f : FunctionRef) : String :=
  ((m.function? f).map (·.decl.name)).getD ""

def field? (m : Memory) (i : InstanceRef) (name : String) : Option Value :=
  (m.fields i).get? name

/-! ### Adding and changing -/

def newList (m : Memory) (elements : Array Value) : ListRef × Memory :=
  (⟨m.lists.size⟩, { m with lists := m.lists.push elements })

def pushInstance (m : Memory) (fields : Bindings Value) : Memory :=
  { m with instances := m.instances.push fields }

def newInstance (m : Memory) (c : ClassRef) (fields : Bindings Value) : InstanceRef × Memory :=
  (⟨m.instances.size, c, (m.classInfo c).isStruct⟩, m.pushInstance fields)

def newFunction (m : Memory) (f : Function) : FunctionRef × Memory :=
  (⟨m.functions.size⟩, { m with functions := m.functions.push f })

def newMethod (m : Memory) (b : BoundMethod) : MethodRef × Memory :=
  (⟨m.methods.size⟩, { m with methods := m.methods.push b })

def newModule (m : Memory) (d : Module) : ModuleRef × Memory :=
  (⟨m.modules.size⟩, { m with modules := m.modules.push d })

def modifyList (m : Memory) (l : ListRef) (f : Array Value → Array Value) : Memory :=
  { m with lists := m.lists.modify l.index f }

def setField (m : Memory) (i : InstanceRef) (name : String) (value : Value) : Memory :=
  { m with instances := m.instances.modify i.index fun fields => fields.insert name value }

/-- Let a function know its class. -/
def setOwner (m : Memory) (c : ClassRef) (f : FunctionRef) : Memory :=
  { m with functions := m.functions.modify f.index fun g => { g with owner := some c } }

def setExports (m : Memory) (r : ModuleRef) (exports : Bindings Value) : Memory :=
  { m with modules := m.modules.modify r.index fun d => { d with exports := exports } }

end Memory

end Classlet
