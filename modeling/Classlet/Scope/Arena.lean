import Classlet.Bindings
import Classlet.Numeral.Format

/-! # The arena of scopes

Variables live in frames, and a context is a chain of frames: the scopes pushed for one
activation, innermost first, and behind them the parent context.

* `Arena.newContext` makes a context with one scope, its base; `pushScope` and `popScope` change
  its stack, and `releaseContext` gives it up.
* `Arena.capture` freezes the chain of a context for a closure.  The frozen context pins the
  frames it mentions, so that they outlive their scope; `Arena.dropClosure` queues it, and the
  next allocation reclaims what nothing mentions any more.

A closure can be bound in a frame that it pins itself, and would keep the frame for ever.  A frame
that is pinned by such closures only is emptied (`Arena.selfPins`).  Which values are closures is
for those to say who know the values: `closure?` is the context of a closure, and a client whose
values are none leaves it out.

Slots of frames and contexts are reused, the one freed last first.  Ill-balanced use is answered
with a `ScopeFault`.  A frozen context has no business with a stack of its own: a scope pushed
onto it is not pinned, and its release then finds less to unpin than it should. -/

namespace Classlet

/-- The slot of a frame. -/
structure ScopeId where
  index : Nat
  deriving Repr, DecidableEq, Inhabited

/-- The slot of a context. -/
structure ContextId where
  index : Nat
  deriving Repr, DecidableEq, Inhabited

def ScopeId.describe (s : ScopeId) : String := "ScopeId(" ++ Numeral.ofInt s.index ++ ")"

def ContextId.describe (c : ContextId) : String := "ContextId(" ++ Numeral.ofInt c.index ++ ")"

/-- The variables of one scope. -/
structure Frame (α : Type) where
  values : Bindings α := []
  /-- The number of frozen contexts that mention the frame. -/
  pins : Nat := 0
  /-- Whether the frame is on the stack of the context that pushed it. -/
  live : Bool := true
  deriving Inhabited

/-- A chain of scopes. -/
structure Context where
  /-- The scopes of the context, innermost first. -/
  scopes : List ScopeId := []
  parent : Option ContextId := none
  /-- Whether the context was frozen for a closure. -/
  captured : Bool := false
  /-- The number of closures and live contexts that mention a frozen context. -/
  refs : Nat := 0
  deriving Repr, DecidableEq, Inhabited

/-- Use of the arena that does not balance. -/
inductive ScopeFault where
  | notInnermost (context : ContextId) (popped innermost : ScopeId)
  | underflow (context : ContextId)
  | stillPushed (context : ContextId) (count : Nat)
  | noScope (context : ContextId)
  /-- A count would fall below zero: of the pins of a frame, of the mentions of a context, or of the
  slots in use. -/
  | overdrawn
  deriving Repr, DecidableEq

def ScopeFault.message : ScopeFault → String
  | notInnermost context popped innermost =>
    "unbalanced scopes in " ++ context.describe ++ ": popping " ++ popped.describe ++
      ", innermost is " ++ innermost.describe
  | underflow context => "unbalanced scopes in " ++ context.describe ++ ": scope stack underflow"
  | stillPushed context count =>
    "unbalanced scopes in " ++ context.describe ++ ": releasing with " ++ Numeral.ofInt count ++
      " scopes still pushed"
  | noScope context => "context " ++ context.describe ++ " has no scope"
  | overdrawn => "attempt to subtract with overflow"

/-- The frames and the contexts made of them. -/
structure Arena (α : Type) where
  frames : Array (Frame α) := #[]
  /-- Free slots of frames, the one freed last first. -/
  freeFrames : List ScopeId := []
  contexts : Array Context := #[]
  /-- Free slots of contexts, the one freed last first. -/
  freeContexts : List ContextId := []
  /-- Contexts of dropped closures that are not yet reclaimed, the one dropped last first. -/
  dropped : List ContextId := []
  deriving Inhabited

namespace Arena

variable {α : Type}

/-! ### Slots -/

/-- The context in a slot; a slot that does not exist holds an empty one. -/
def context (a : Arena α) (c : ContextId) : Context := a.contexts[c.index]?.getD {}

/-- The frame in a slot; a slot that does not exist holds an empty one. -/
def frame (a : Arena α) (s : ScopeId) : Frame α := a.frames[s.index]?.getD {}

def setContext (a : Arena α) (c : ContextId) (context : Context) : Arena α :=
  { a with contexts := a.contexts.setIfInBounds c.index context }

def modifyFrame (a : Arena α) (s : ScopeId) (f : Frame α → Frame α) : Arena α :=
  { a with frames := a.frames.modify s.index f }

/-- Put a new frame into a free slot, or into a slot of its own. -/
def allocFrame (a : Arena α) : ScopeId × Arena α :=
  match a.freeFrames with
  | s :: rest => (s, { a with freeFrames := rest, frames := a.frames.setIfInBounds s.index {} })
  | [] => (⟨a.frames.size⟩, { a with frames := a.frames.push {} })

/-- Put a context into a free slot, or into a slot of its own. -/
def allocContext (a : Arena α) (context : Context) : ContextId × Arena α :=
  match a.freeContexts with
  | c :: rest =>
    (c, { a with freeContexts := rest, contexts := a.contexts.setIfInBounds c.index context })
  | [] => (⟨a.contexts.size⟩, { a with contexts := a.contexts.push context })

/-! ### Reclaiming -/

/-- The pins on a frame by closures that nothing but the frame itself refers to: they are bound in
it once, and dropped everywhere else. -/
def selfPins (a : Arena α) (closure? : α → Option ContextId) (s : ScopeId) : Nat :=
  let bound := (a.frame s).values.filterMap fun entry => closure? entry.2
  bound.countP fun c =>
    let context := a.context c
    a.dropped.contains c && bound.count c == 1 && context.captured && context.refs == 1 &&
      context.scopes.contains s

/-- Take the variables out of a frame. -/
def emptyFrame (a : Arena α) (s : ScopeId) : Arena α :=
  a.modifyFrame s fun f => { f with values := [] }

/-- Free a frame that is neither on a stack nor pinned.  A frame that is pinned only by closures
bound in the frame itself is emptied: it is freed when they are reclaimed. -/
def collectFrame (a : Arena α) (s : ScopeId) (closure? : α → Option ContextId := fun _ => none) :
    Arena α :=
  let f := a.frame s
  if f.live then a
  else if f.pins = 0 then { a.emptyFrame s with freeFrames := s :: a.freeFrames }
  else if f.pins = a.selfPins closure? s then a.emptyFrame s
  else a

/-- Take one pin off a frame. -/
def unpin (a : Arena α) (s : ScopeId) (closure? : α → Option ContextId := fun _ => none) :
    Except ScopeFault (Arena α) :=
  if (a.frame s).pins = 0 then .error .overdrawn
  else .ok ((a.modifyFrame s fun f => { f with pins := f.pins - 1 }).collectFrame s closure?)

/-- Take one pin off each of some frames. -/
def unpinAll (a : Arena α) (l : List ScopeId)
    (closure? : α → Option ContextId := fun _ => none) : Except ScopeFault (Arena α) :=
  match l with
  | [] => .ok a
  | s :: more =>
    match a.unpin s closure? with
    | .ok a => a.unpinAll more closure?
    | .error fault => .error fault

/-- One more mention of a context; only frozen ones are counted. -/
def retain (a : Arena α) (c : ContextId) : Arena α :=
  let context := a.context c
  if context.captured then a.setContext c { context with refs := context.refs + 1 } else a

/-- One more mention of a context, if there is one. -/
def retainAll (a : Arena α) : Option ContextId → Arena α
  | some c => a.retain c
  | none => a

def freeContext (a : Arena α) (c : ContextId) : Arena α :=
  let a := a.setContext c {}
  { a with freeContexts := c :: a.freeContexts }

/-- One mention less of a context, and of its ancestors as far as contexts are freed on the way; at
most `fuel` of them.  A frozen context is freed with its last mention, which unpins its frames. -/
def releaseFrom (fuel : Nat) (a : Arena α) (c : ContextId)
    (closure? : α → Option ContextId := fun _ => none) : Except ScopeFault (Arena α) :=
  match fuel with
  | 0 => .ok a
  | fuel + 1 =>
    let context := a.context c
    if !context.captured then .ok a
    else if context.refs = 0 then .error .overdrawn
    else if 1 < context.refs then .ok (a.setContext c { context with refs := context.refs - 1 })
    else
      match (a.freeContext c).unpinAll context.scopes.reverse closure? with
      | .error fault => .error fault
      | .ok a =>
        match context.parent with
        | some parent => releaseFrom fuel a parent closure?
        | none => .ok a

/-- One mention less of a context. -/
def release (a : Arena α) (c : ContextId) (closure? : α → Option ContextId := fun _ => none) :
    Except ScopeFault (Arena α) :=
  releaseFrom (a.contexts.size + 1) a c closure?

/-- One mention less of each of some contexts. -/
def releaseAll (a : Arena α) : List ContextId → Except ScopeFault (Arena α)
  | [] => .ok a
  | c :: more =>
    match a.release c with
    | .ok a => a.releaseAll more
    | .error fault => .error fault

/-- Release the contexts of the closures dropped since the last allocation. -/
def reclaim (a : Arena α) : Except ScopeFault (Arena α) :=
  releaseAll { a with dropped := [] } a.dropped

/-! ### Contexts and scopes -/

def openContext (a : Arena α) (parent : Option ContextId) : ContextId × Arena α :=
  let a := a.retainAll parent
  let (base, a) := a.allocFrame
  a.allocContext { scopes := [base], parent := parent }

/-- A new context with one scope, after reclaiming what was dropped. -/
def newContext (a : Arena α) (parent : Option ContextId) :
    Except ScopeFault (ContextId × Arena α) :=
  a.reclaim.map fun a => a.openContext parent

/-- Push a scope onto the stack of a context. -/
def pushScope (a : Arena α) (c : ContextId) : ScopeId × Arena α :=
  let (s, a) := a.allocFrame
  let context := a.context c
  (s, a.setContext c { context with scopes := s :: context.scopes })

/-- Why the scope `s` cannot be popped from a context: it is not the innermost one. -/
def popFault? (a : Arena α) (c : ContextId) (s : ScopeId) : Option ScopeFault :=
  match (a.context c).scopes with
  | [] => some (.underflow c)
  | top :: _ => if top = s then none else some (.notInnermost c s top)

/-- The arena without the innermost scope `s` of a context. -/
def dropScope (a : Arena α) (c : ContextId) (s : ScopeId)
    (closure? : α → Option ContextId := fun _ => none) : Arena α :=
  let context := a.context c
  let a := a.setContext c { context with scopes := context.scopes.tail }
  (a.modifyFrame s fun f => { f with live := false }).collectFrame s closure?

/-- Pop the innermost scope of a context, which has to be `s`. -/
def popScope (a : Arena α) (c : ContextId) (s : ScopeId) : Except ScopeFault (Arena α) :=
  match a.popFault? c s with
  | some fault => .error fault
  | none => .ok (a.dropScope c s)

/-- Give up a context of which only the base scope is left, and its mention of the parent. -/
def releaseContext (a : Arena α) (c : ContextId)
    (closure? : α → Option ContextId := fun _ => none) : Except ScopeFault (Arena α) :=
  let context := a.context c
  match context.scopes with
  | [base] =>
    let a := (a.dropScope c base closure?).freeContext c
    match context.parent with
    | some parent => a.release parent closure?
    | none => .ok a
  | scopes => .error (.stillPushed c scopes.length)

/-- Freeze the chain of a context for a closure. -/
def freeze (a : Arena α) (c : ContextId) : ContextId × Arena α :=
  let context := a.context c
  let a := context.scopes.reverse.foldl
    (fun a s => a.modifyFrame s fun f => { f with pins := f.pins + 1 }) a
  let a := a.retainAll context.parent
  a.allocContext { scopes := context.scopes, parent := context.parent, captured := true, refs := 1 }

/-- Freeze the chain of a context for a closure, after reclaiming what was dropped. -/
def capture (a : Arena α) (c : ContextId) : Except ScopeFault (ContextId × Arena α) :=
  a.reclaim.map fun a => a.freeze c

/-- Queue the context of a closure that nothing holds any more. -/
def dropClosure (a : Arena α) (c : ContextId) : Arena α := { a with dropped := c :: a.dropped }

/-! ### Variables -/

/-- The innermost of some scopes that binds a name. -/
def binder? (a : Arena α) (scopes : List ScopeId) (name : String) : Option ScopeId :=
  scopes.find? fun s => (a.frame s).values.has name

/-- The value of a name, searched in a context and then in its ancestors, at most `fuel` of them. -/
def getFrom? (a : Arena α) (name : String) : Nat → ContextId → Option α
  | 0, _ => none
  | fuel + 1, c =>
    let context := a.context c
    match context.scopes.findSome? fun s => (a.frame s).values.get? name with
    | some v => some v
    | none => context.parent.bind (getFrom? a name fuel)

/-- The value of a name as seen from a context: scopes from the innermost outwards, then the
parents. -/
def get? (a : Arena α) (c : ContextId) (name : String) : Option α :=
  a.getFrom? name (a.contexts.size + 1) c

def bind (a : Arena α) (s : ScopeId) (name : String) (value : α) : Arena α :=
  a.modifyFrame s fun f => { f with values := f.values.insert name value }

/-- The innermost scope of a context. -/
def innermost (a : Arena α) (c : ContextId) : Except ScopeFault ScopeId :=
  match (a.context c).scopes with
  | s :: _ => .ok s
  | [] => .error (.noScope c)

/-- The bindings of the outermost scope of a context. -/
def baseBindings (a : Arena α) (c : ContextId) : Bindings α :=
  match (a.context c).scopes.getLast? with
  | some base => (a.frame base).values
  | none => []

/-- The number of scopes on the stack of a context. -/
def scopeCount (a : Arena α) (c : ContextId) : Nat := (a.context c).scopes.length

/-- The numbers of contexts and of frames in use. -/
def liveCounts (a : Arena α) : Except ScopeFault (Nat × Nat) :=
  if a.contexts.size < a.freeContexts.length || a.frames.size < a.freeFrames.length then
    .error .overdrawn
  else .ok (a.contexts.size - a.freeContexts.length, a.frames.size - a.freeFrames.length)

end Arena

end Classlet
