import Classlet.Scope.Store

/-! # An environment that keeps everything

`Archive` answers the same questions as an arena of scopes, and gives nothing up: every context
and every frame gets a slot of its own, releasing and dropping do nothing, and a frozen context
shares the frames of the chain it was frozen from.  There are no counts and no free lists, so the
rules for variables can be read off directly.  It is what an arena is compared with.

A context is made after its parent, so that the slots of a chain decrease. -/

namespace Classlet

/-- A chain of scopes. -/
structure Chain where
  /-- The scopes of the chain, innermost first. -/
  scopes : List ScopeId := []
  parent : Option ContextId := none
  deriving Repr, DecidableEq, Inhabited

/-- Objects, and every scope and every context that there ever was. -/
structure Archive where
  memory : Memory := {}
  frames : Array (Bindings Value) := #[]
  contexts : Array Chain := #[]

namespace Archive

def chain (a : Archive) (c : ContextId) : Chain := a.contexts[c.index]?.getD {}

def frame (a : Archive) (s : ScopeId) : Bindings Value := a.frames[s.index]?.getD []

/-! ### Contexts and scopes -/

def newContext (a : Archive) (parent : Option ContextId) : ContextId × Archive :=
  (⟨a.contexts.size⟩, { a with
    frames := a.frames.push []
    contexts := a.contexts.push { scopes := [⟨a.frames.size⟩], parent := parent } })

def setScopes (a : Archive) (c : ContextId) (scopes : List ScopeId) : Archive :=
  { a with contexts := a.contexts.modify c.index fun x => { x with scopes := scopes } }

/-- Push a scope onto the stack of a context. -/
def pushScope (a : Archive) (c : ContextId) : ScopeId × Archive :=
  (⟨a.frames.size⟩,
    { a with frames := a.frames.push [] }.setScopes c (⟨a.frames.size⟩ :: (a.chain c).scopes))

/-- Pop the innermost scope of a context, which has to be `s`. -/
def popScope (a : Archive) (c : ContextId) (s : ScopeId) : Except ScopeFault Archive :=
  match (a.chain c).scopes with
  | [] => .error (.underflow c)
  | top :: rest => if top = s then .ok (a.setScopes c rest) else .error (.notInnermost c s top)

/-- Freeze the chain of a context for a closure. -/
def capture (a : Archive) (c : ContextId) : ContextId × Archive :=
  (⟨a.contexts.size⟩, { a with contexts := a.contexts.push (a.chain c) })

/-! ### Variables -/

/-- The value of a name, searched in a context and then in its ancestors, at most `fuel` of them. -/
def getFrom? (a : Archive) (name : String) : Nat → ContextId → Option Value
  | 0, _ => none
  | fuel + 1, c =>
    match (a.chain c).scopes.findSome? fun s => (a.frame s).get? name with
    | some v => some v
    | none => (a.chain c).parent.bind (getFrom? a name fuel)

/-- The value of a name as seen from a context. -/
def lookup (a : Archive) (c : ContextId) (name : String) : Except Cause Value :=
  match a.getFrom? name (c.index + 1) c with
  | some v => .ok v
  | none => .error (.undefinedName name)

def bind (a : Archive) (s : ScopeId) (name : String) (v : Value) : Archive :=
  { a with frames := a.frames.modify s.index fun values => values.insert name v }

/-- Bind a name in a scope to what binding `v` gives. -/
def bindCopy (a : Archive) (s : ScopeId) (name : String) (v : Value) : Archive :=
  { a.bind s name (a.memory.copyForBinding v).1 with memory := (a.memory.copyForBinding v).2 }

/-- The innermost scope of a context, as the place of a new variable. -/
def newPlace (a : Archive) (c : ContextId) (name : String) : Except BindFault ScopeId :=
  if isReserved name then .error (.cause (.reservedName name))
  else
    match (a.chain c).scopes with
    | s :: _ => .ok s
    | [] => .error (.unbalanced (.noScope c))

/-- The scope in which an assignment of `v` binds a name: the innermost of the context's own scopes
that has it, where the class may not change, or else the innermost one. -/
def place (a : Archive) (c : ContextId) (name : String) (v : Value) : Except BindFault ScopeId :=
  if isReserved name then .error (.cause (.reservedName name))
  else
    match (a.chain c).scopes.find? fun s => (a.frame s).has name with
    | some s =>
      let old := ((a.frame s).get? name).getD .nil
      if !old.isNil && !old.sameClass v then
        .error (.cause (.classChange name (a.memory.typeName old) (a.memory.typeName v)))
      else .ok s
    | none => a.newPlace c name

/-- Rebind a name of a context, or bind it in the innermost scope. -/
def assign (a : Archive) (c : ContextId) (name : String) (v : Value) : Except BindFault Archive :=
  (a.place c name v).map fun s => a.bindCopy s name v

/-- Bind a name in the innermost scope of a context. -/
def define (a : Archive) (c : ContextId) (name : String) (v : Value) : Except BindFault Archive :=
  (a.newPlace c name).map fun s => a.bindCopy s name v

/-- Bind a name in the innermost scope of a context without copying. -/
def defineShared (a : Archive) (c : ContextId) (name : String) (v : Value) :
    Except BindFault Archive :=
  (a.newPlace c name).map fun s => a.bind s name v

/-- The bindings of the outermost scope of a context. -/
def baseBindings (a : Archive) (c : ContextId) : Bindings Value :=
  match (a.chain c).scopes.getLast? with
  | some base => a.frame base
  | none => []

/-- The number of scopes on the stack of a context. -/
def scopeCount (a : Archive) (c : ContextId) : Nat := (a.chain c).scopes.length

/-! ### Reading after writing -/

variable (a : Archive)

theorem chain_newContext (parent : Option ContextId) (c : ContextId) :
    (a.newContext parent).2.chain c =
      if c.index = a.contexts.size then { scopes := [⟨a.frames.size⟩], parent := parent }
      else a.chain c := by
  simp only [newContext, chain, Array.getElem?_push]
  split <;> rfl

theorem chain_capture (d c : ContextId) :
    (a.capture d).2.chain c = if c.index = a.contexts.size then a.chain d else a.chain c := by
  simp only [capture, chain, Array.getElem?_push]
  split <;> rfl

theorem chain_setScopes {c : ContextId} (hc : c.index < a.contexts.size) (scopes : List ScopeId)
    (d : ContextId) :
    (a.setScopes c scopes).chain d =
      if d = c then { a.chain c with scopes := scopes } else a.chain d := by
  obtain ⟨i⟩ := c
  obtain ⟨j⟩ := d
  have hi : i < a.contexts.size := hc
  simp only [setScopes, chain, Array.getElem?_modify, ContextId.mk.injEq]
  by_cases hij : i = j
  · subst hij
    simp [hi]
  · simp [hij, Ne.symm hij]

theorem chain_pushScope {c : ContextId} (hc : c.index < a.contexts.size) (d : ContextId) :
    (a.pushScope c).2.chain d =
      if d = c then { a.chain c with scopes := ⟨a.frames.size⟩ :: (a.chain c).scopes }
      else a.chain d :=
  chain_setScopes { a with frames := a.frames.push [] } hc _ d

theorem frame_push (s : ScopeId) :
    ({ a with frames := a.frames.push [] } : Archive).frame s = a.frame s := by
  simp only [frame, Array.getElem?_push]
  split
  · rename_i h
    simp [h]
  · rfl

theorem frame_bind {s : ScopeId} (hs : s.index < a.frames.size) (name : String) (v : Value)
    (t : ScopeId) :
    (a.bind s name v).frame t = if t = s then (a.frame s).insert name v else a.frame t := by
  obtain ⟨i⟩ := s
  obtain ⟨j⟩ := t
  have hi : i < a.frames.size := hs
  simp only [bind, frame, Array.getElem?_modify, ScopeId.mk.injEq]
  by_cases hij : i = j
  · subst hij
    simp [hi]
  · simp [hij, Ne.symm hij]

/-- The search from a context ends at the latest when as many contexts were searched as there are
slots up to it. -/
theorem getFrom?_of_lt (h : ∀ c p, (a.chain c).parent = some p → p.index < c.index)
    (name : String) : ∀ (n : Nat) (c : ContextId), c.index < n →
      ∀ m, n ≤ m → a.getFrom? name m c = a.getFrom? name n c
  | 0, _, hc, _, _ => by omega
  | n + 1, c, hc, 0, hm => by omega
  | n + 1, c, hc, m + 1, hm => by
      simp only [getFrom?]
      cases hp : (a.chain c).parent with
      | none => rfl
      | some p =>
          have := h c p hp
          rw [Option.bind_some, Option.bind_some,
            getFrom?_of_lt h name n p (by omega) m (by omega)]

end Archive

end Classlet
