import Classlet.Proofs.Assignment.ReadBack
import Classlet.Proofs.Error.Handlers
import Classlet.Proofs.Evaluator.Quiet

/-! # Assignments that fail

An assignment to one target that runs no code of its own either succeeds or changes nothing: values
and containers are evaluated first, and what can be refused is refused before anything is stored
(`Reached.failed_assignment`).  There is one exception.  An attribute of an element is set in
the element, and if that is a struct value it is then stored back where it was taken from.  A tuple
refuses it, when the attribute has been set already (`SetInTuple`,
`failed_assignment_sets_field_in_tuple`).

Over a quiet engine an instance is no container of elements.  So a container that an index leads
through is a list, a tuple or a text, which is no struct value, and nothing but the last element is
stored back (`updatePlace_of_refused`). -/

namespace Classlet

open Eval

variable {e : Engine} {s t : State} {error : RuntimeError} {v : Value}

/-! ### What has not changed -/

/-- Between `s` and `t` nothing has changed but what is printed, kept, traced or loaded, and what is
new: all variables, lists and fields are as they were. -/
structure Unchanged (s t : State) : Prop extends Undisturbed s t where
  elements : ∀ l : ListRef, l.index < s.memory.lists.size →
    t.memory.elements l = s.memory.elements l
  fields : ∀ i : InstanceRef, i.index < s.memory.instances.size →
    t.memory.fields i = s.memory.fields i

theorem Spared.unchanged {α : Type} {o : Outcome α} (h : Spared s (o, t)) : Unchanged s t where
  root := h.settles.root
  activation := h.settles.activation
  depth := h.settles.depth
  memory := h.settles.memory
  inUse := h.settles.scopes.inUse
  context := h.settles.scopes.context
  values c hc scope hm := h.settles.scopes.values c hc scope hm List.not_mem_nil
  elements _ hl := h.memory.elements hl
  fields _ hi := h.memory.fields hi

/-! ### Variables and attributes -/

/-- A variable that is refused is refused before it is bound. -/
theorem assign_raised {c : ContextId} {name : String}
    (h : assign c name v s = (.raised error, t)) : t = s := by
  unfold assign bindAt at h
  split at h
  · cases h
  · cases h
    rfl
  · cases h

theorem setAttribute_raised {object : Value} {name : String}
    (h : setAttribute object name v s = (.raised error, t)) : t = s := by
  unfold setAttribute at h
  split at h <;> cases h <;> rfl

theorem setAttribute_ok {object : Value} {name : String}
    (h : setAttribute object name v s = (.ok (), t)) : ∃ i, object = .instance i ∧
      t = { s with memory := s.memory.bindField i name v } := by
  unfold setAttribute at h
  split at h
  · rename_i i
    exact ⟨i, rfl, (congrArg Prod.snd h).symm⟩
  all_goals cases h

/-! ### Elements over a quiet engine -/

/-- An update that succeeds on no instance. -/
def Refused (update : Value → Eval Unit) : Prop := ∀ i s t, update (.instance i) s ≠ (.ok (), t)

section quiet
variable (he : e.IsQuiet)
include he

/-- Whatever an instance is asked for with an operator of its own, it does not answer. -/
theorem callMethod_stops (method receiver : Value) (arguments : List Value) :
    e.callMethod method receiver arguments = stop .outOfFuel :=
  he method true (receiver :: arguments) []

theorem indexOperation_instance (i : InstanceRef) (index : Value) (s t : State) (w : Value) :
    indexOperation e (.instance i) index s ≠ (.ok w, t) := by
  intro h
  unfold indexOperation at h
  obtain ⟨found, s₁, -, h⟩ := of_bind_ok h
  cases found with
  | none => cases h
  | some method =>
    dsimp only at h
    rw [callMethod_stops he] at h
    cases h

theorem setIndexOperation_instance (i : InstanceRef) (index v : Value) (s t : State) :
    setIndexOperation e (.instance i) index v s ≠ (.ok (), t) := by
  intro h
  unfold setIndexOperation at h
  obtain ⟨found, s₁, -, h⟩ := of_bind_ok h
  cases found with
  | none => cases h
  | some method =>
    obtain ⟨w, s₂, h, -⟩ := of_bind_ok h
    rw [callMethod_stops he] at h
    cases h

/-- An element that is refused is refused before anything is stored. -/
theorem setIndexOperation_raised {container index : Value}
    (h : setIndexOperation e container index v s = (.raised error, t)) : t = s := by
  unfold setIndexOperation at h
  split at h
  · rename_i l
    rcases of_bind_raised h with h | ⟨size, s₁, hsize, h⟩
    · cases h
    · cases hsize
      rcases of_bind_raised h with h | ⟨p, s₂, -, h⟩
      · unfold positionOf at h
        split at h
        · generalize position .list _ _ = p at h
          cases p <;> cases h
          rfl
        · cases h
          rfl
      · -- the copy is made and stored
        rcases of_bind_raised h with h | ⟨w, s₃, -, h⟩ <;> cases h
  · rename_i i
    rcases of_bind_raised h with h | ⟨found, s₁, hfound, h⟩
    · cases h
    · obtain rfl : s₁ = s := (congrArg Prod.snd hfound).symm
      cases found with
      | none =>
        cases h
        rfl
      | some method =>
        rcases of_bind_raised h with h | ⟨w, s₂, h, -⟩ <;> rw [callMethod_stops he] at h <;> cases h
  · cases h
    rfl

/-- An update of an element is refused by instances, whatever is done to the element. -/
theorem refused_of_element (index : Expr) (use : Value → Value → Value → Eval Unit) :
    Refused (fun parent => do
      let i ← e.evalExpr index
      let container ← indexOperation e parent i
      use parent i container) := by
  intro j s t h
  obtain ⟨i, s₁, -, h⟩ := of_bind_ok h
  obtain ⟨c, s₂, h, -⟩ := of_bind_ok h
  exact indexOperation_instance he j i s₁ s₂ c h

theorem refused_of_setElement (index : Expr) (v : Value) :
    Refused (fun container => do
      let i ← e.evalExpr index
      setIndexOperation e container i v) := by
  intro j s t h
  obtain ⟨i, s₁, -, h⟩ := of_bind_ok h
  exact setIndexOperation_instance he j i v s₁ t h

/-- An update that instances refuse is made where the place is read, and nothing is stored back. -/
theorem updatePlace_of_refused (place : Expr) {update : Value → Eval Unit}
    (hupdate : Refused update) : updatePlace e place update = e.evalExpr place >>= update := by
  fun_induction updatePlace e place update with
  | case1 object index update ih =>
    have hback : ∀ (parent i container : Value), (do
        update container
        if container.isStruct then setIndexOperation e parent i container) = update container := by
      intro parent i container
      cases hstruct : container.isStruct with
      | false => exact bind_pure (update container)
      | true =>
        obtain ⟨j, rfl⟩ : ∃ j, container = .instance j := by
          cases container with
          | «instance» j => exact ⟨j, rfl⟩
          | _ => cases hstruct
        funext s
        rw [bind_apply]
        rcases hr : update (.instance j) s with ⟨⟨⟩ | _ | _, t⟩
        · exact absurd hr (hupdate j s t)
        · rfl
        · rfl
    simp only [hback] at ih ⊢
    rw [ih (refused_of_element he index fun _ _ => update), Engine.evalExpr]
    simp only [← bind_assoc]
  | case2 place update hplace => rfl

end quiet

/-! ### Assignments to one target -/

/-- A field of a struct value in a tuple has been set before the tuple refuses to take the value
back.  Nothing else has changed. -/
inductive SetInTuple (e : Engine) (s : State) (target : Expr) (error : RuntimeError) (t : State) :
    Prop
  | intro {object index : Expr} {name : String} {vs : List Value} {i : InstanceRef} {v : Value}
      {s₁ s₂ u : State} : target = .attr (.index object index) name → Unchanged s s₁ →
      e.evalExpr object s₁ = (.ok (.tuple vs), s₂) → .instance i ∈ vs → i.isStruct = true →
      Unchanged s u → t = { u with memory := u.memory.bindField i name v } →
      error.raised = .cause (.noItemAssignment "tuple") → SetInTuple e s target error t

theorem setIndexOperation_list_raised {l : ListRef} {index : Value}
    (h : setIndexOperation e (.list l) index v s = (.raised error, t)) :
    s.memory.element? l index = none := by
  unfold setIndexOperation at h
  rcases of_bind_raised h with h | ⟨size, s₁, hsize, h⟩
  · cases h
  · cases hsize
    rcases of_bind_raised h with h | ⟨p, s₂, -, h⟩
    · unfold positionOf at h
      unfold Memory.element?
      cases index with
      | int k =>
        dsimp only at h ⊢
        cases hp : position .list (s.memory.elements l).size k with
        | ok p => rw [hp] at h; cases h
        | error c => rfl
      | _ => rfl
    · rcases of_bind_raised h with h | ⟨w, s₃, -, h⟩ <;> cases h

/-- What was read from a container is refused by it only if the container is a tuple. -/
theorem storeBack_raised (he : e.IsQuiet) {container index : Value} {i : InstanceRef}
    {name : String} {u : State}
    (hread : indexOperation e container index s = (.ok (.instance i), u))
    (h : setIndexOperation e container index (.instance i)
      { u with memory := u.memory.bindField i name v } = (.raised error, t)) :
    ∃ vs, container = .tuple vs ∧ .instance i ∈ vs ∧
      t = { u with memory := u.memory.bindField i name v } ∧
      error.raised = .cause (.noItemAssignment "tuple") := by
  cases container with
  | str text =>
    obtain ⟨p, s₁, -, hread⟩ := of_bind_ok hread
    cases hread
  | list l =>
    obtain ⟨helement, rfl⟩ := (indexOperation_list e index).mp hread
    have hnone := setIndexOperation_list_raised h
    rw [Memory.element?_congr (Memory.elements_bindField ..), helement] at hnone
    cases hnone
  | tuple vs =>
    obtain ⟨p, s₁, -, hread⟩ := of_bind_ok hread
    have hget : vs[p]?.getD .nil = .instance i := Outcome.ok.inj (congrArg Prod.fst hread)
    refine ⟨vs, rfl, ?_, ?_⟩
    · cases hp : vs[p]? with
      | none =>
        rw [hp] at hget
        cases hget
      | some w =>
        rw [hp, Option.getD_some] at hget
        exact hget ▸ List.mem_of_getElem? hp
    · cases h
      exact ⟨rfl, rfl⟩
  | «instance» j => exact absurd hread (indexOperation_instance he j index s u _)
  | _ => cases hread

/-- The parts of a computation that raises: what is evaluated first is harmless, and so is what was
evaluated before it. -/
theorem Spared.bind_raised {α β γ : Type} {s₀ : State} {o : Outcome γ} {x : Eval α}
    {f : α → Eval β} (hbefore : Spared s₀ (o, s)) (hx : Harmless x)
    (h : (x >>= f) s = (.raised error, t)) :
    Unchanged s₀ t ∨ ∃ a s₁, x s = (.ok a, s₁) ∧ Spared s₀ (Outcome.ok a, s₁) ∧
      f a s₁ = (.raised error, t) := by
  have hspared := hbefore.trans (hx.spared hbefore.sound)
  rcases of_bind_raised h with h | ⟨a, s₁, hok, h⟩
  · rw [h] at hspared
    exact .inl hspared.unchanged
  · rw [hok] at hspared
    exact .inr ⟨a, s₁, hok, hspared, h⟩

section targets
variable {s₀ : State} {γ : Type} {o : Outcome γ} (hquiet : e.IsQuiet) (he : e.Satisfies Harmless)
  (hbefore : Spared s₀ (o, s))
include hquiet he hbefore

theorem updatePlace_setAttribute_raised {object : Expr} {name : String}
    (h : updatePlace e object (fun c => setAttribute c name v) s = (.raised error, t)) :
    Unchanged s₀ t ∨ SetInTuple e s₀ (.attr object name) error t := by
  by_cases hindex : ∃ container index, object = .index container index
  · obtain ⟨object, index, rfl⟩ := hindex
    rw [updatePlace, updatePlace_of_refused hquiet object (refused_of_element hquiet index
      fun container i c => do
        setAttribute c name v
        if c.isStruct then setIndexOperation e container i c)] at h
    rcases hbefore.bind_raised (harmless_gentle.evalExpr he object) h with
      h | ⟨container, s₁, hobject, h₁, h⟩
    · exact .inl h
    rcases h₁.bind_raised (harmless_gentle.evalExpr he index) h with h | ⟨i, s₂, -, h₂, h⟩
    · exact .inl h
    rcases h₂.bind_raised (harmless_gentle.indexOperation he container i) h with
      h | ⟨c, u, hread, hu, h⟩
    · exact .inl h
    rcases of_bind_raised h with h | ⟨⟨⟩, s₄, hset, h⟩
    · exact .inl (setAttribute_raised h ▸ hu.unchanged)
    · obtain ⟨j, rfl, rfl⟩ := setAttribute_ok hset
      split at h
      · rename_i hstruct
        obtain ⟨vs, rfl, hmem, ht, herror⟩ := storeBack_raised hquiet hread h
        exact .inr (.intro rfl hbefore.unchanged hobject hmem hstruct hu.unchanged ht herror)
      · cases h
  · have hplace : updatePlace e object (fun c => setAttribute c name v) =
        e.evalExpr object >>= fun c => setAttribute c name v := by
      cases object with
      | index container index => exact absurd ⟨container, index, rfl⟩ hindex
      | _ => rfl
    rw [hplace] at h
    rcases hbefore.bind_raised (harmless_gentle.evalExpr he object) h with h | ⟨c, u, -, hu, h⟩
    · exact .inl h
    · exact .inl (setAttribute_raised h ▸ hu.unchanged)

theorem updatePlace_setIndex_raised {object index : Expr}
    (h : updatePlace e object (fun c => do
      let i ← e.evalExpr index
      setIndexOperation e c i v) s = (.raised error, t)) : Unchanged s₀ t := by
  rw [updatePlace_of_refused hquiet _ (refused_of_setElement hquiet index v)] at h
  rcases hbefore.bind_raised (harmless_gentle.evalExpr he object) h with h | ⟨c, s₁, -, h₁, h⟩
  · exact h
  rcases h₁.bind_raised (harmless_gentle.evalExpr he index) h with h | ⟨i, u, -, hu, h⟩
  · exact h
  · exact setIndexOperation_raised hquiet h ▸ hu.unchanged

theorem assignTo_raised {target : Expr} (h : assignTo e target v s = (.raised error, t)) :
    Unchanged s₀ t ∨ SetInTuple e s₀ target error t := by
  unfold assignTo at h
  split at h
  · rcases of_bind_raised h with h | ⟨c, s₁, hc, h⟩
    · cases h
    · obtain rfl : s₁ = s := (congrArg Prod.snd hc).symm
      exact .inl (assign_raised h ▸ hbefore.unchanged)
  · exact updatePlace_setAttribute_raised hquiet he hbefore h
  · exact .inl (updatePlace_setIndex_raised hquiet he hbefore h)
  · cases h
    exact .inl hbefore.unchanged
  · cases h
    exact .inl hbefore.unchanged

end targets

theorem assignment_raised (hquiet : e.IsQuiet) (he : e.Satisfies Harmless) (hs : s.Sound)
    {target : Expr} {values : List Expr}
    (h : assignment e [target] values s = (.raised error, t)) :
    Unchanged s t ∨ SetInTuple e s target error t := by
  have hstart : Spared s (Outcome.ok (), s) := .refl hs (.ok ())
  rcases hstart.bind_raised (harmless_gentle.evalAll he values) h with h | ⟨vs, s₁, -, h₁, h⟩
  · exact .inl h
  rcases h₁.bind_raised (harmless_gentle.spread he 1 vs) h with h | ⟨ws, s₂, -, h₂, h⟩
  · exact .inl h
  cases ws with
  | nil => cases h
  | cons v rest =>
    rcases of_bind_raised h with h | ⟨⟨⟩, u, -, h⟩
    · exact assignTo_raised hquiet he h₂ h
    · cases h

/-- A statement is run without calling or importing anything. -/
def CallsNothing (settings : Settings) (loader : Loader) (fuel : Nat) (code : Statement)
    (s : State) : Prop :=
  (quietEngine settings loader fuel).execStatement code s =
    (engine settings loader fuel).execStatement code s

/-- **A failed assignment changes nothing**, in whatever state an assignment to one target is run,
if it runs no code of its own.  The exception is an attribute of a struct value that is an element
of a tuple. -/
theorem Reached.failed_assignment {settings : Settings} {loader : Loader}
    (h : Reached settings loader s) {fuel : Nat} {line : UInt32} {target : Expr}
    {values : List Expr}
    (hcalls : CallsNothing settings loader fuel (.mk line (.assign [target] values)) s)
    (hfails : (engine settings loader fuel).execStatement (.mk line (.assign [target] values)) s =
      (.raised error, t)) :
    Unchanged s t ∨ SetInTuple (quietEngine settings loader fuel) s target error t := by
  rw [← hcalls, Engine.execStatement] at hfails
  obtain ⟨cause, hraised, hrecord⟩ := of_recording_raised hfails
  have hassign : assignment (quietEngine settings loader fuel) [target] values s =
      (.raised cause, t) := by
    rw [execKind] at hraised
    rcases of_bind_raised hraised with h | ⟨u, s₁, -, h⟩
    · exact h
    · cases h
  rcases assignment_raised (quietEngine_isQuiet settings loader fuel)
    (quietEngine_satisfies settings loader harmless_gentle fuel) h.sound hassign with h | h
  · exact .inl h
  · obtain ⟨htarget, hbefore, htuple, hmem, hstruct, hu, ht, herror⟩ := h
    refine .inr (.intro htarget hbefore htuple hmem hstruct hu ht ?_)
    rw [hrecord, RuntimeError.raised_record, herror]

/-- The engine does not matter for an element of a list that a variable is bound to. -/
theorem execStatement_setElement (e e' : Engine) {l : ListRef} {line : UInt32} {name : String}
    {i x : Literal} (hbound : s.toStore.lookup s.activation.context name = .ok (.list l)) :
    e.execStatement (.mk line (.assign [.index (.var name) (.literal i)] [.literal x])) s =
      e'.execStatement (.mk line (.assign [.index (.var name) (.literal i)] [.literal x])) s := by
  have hassign : ∀ e : Engine, assignTo e (.index (.var name) (.literal i)) x.value s =
      setIndexOperation e (.list l) i.value x.value s := by
    intro e
    have hplace : assignTo e (.index (.var name) (.literal i)) x.value =
        e.evalExpr (.var name) >>= fun c => setIndexOperation e c i.value x.value := rfl
    rw [hplace, bind_apply, evalExpr_var e hbound]
  have hrun : ∀ e : Engine,
      e.execStatement (.mk line (.assign [.index (.var name) (.literal i)] [.literal x])) s =
        recording (.mk line (.assign [.index (.var name) (.literal i)] [.literal x]))
          ((assignTo e (.index (.var name) (.literal i)) x.value >>= fun _ => pure ()) >>=
            fun _ => pure .normal) s :=
    fun _ => rfl
  rw [hrun, hrun, recording, recording]
  simp only [bind_apply, hassign]
  rfl

def Value.list? : Value → Option ListRef
  | .list l => some l
  | _ => none

theorem Value.eq_of_list? {ε : Type} {x : Except ε Value} {l : ListRef}
    (h : x.toOption.bind Value.list? = some l) : x = .ok (.list l) := by
  cases x with
  | error error => cases h
  | ok v =>
    cases v with
    | list k => rw [Option.some.inj h]
    | _ => cases h

def listOfStruct : State :=
  { State.initial with
    memory := { State.initial.memory with
      instances := #[[("v", .int 0)]], lists := #[#[.instance ⟨0, .nil, true⟩]] } }

/-- A variable is bound to a list of one struct value. -/
def structInList : State := (assign listOfStruct.root "cells" (.list ⟨0⟩) listOfStruct).2

theorem reached_structInList : Reached {} (fun _ => .unknown) structInList := by
  have hclosures : listOfStruct.memory.closures = State.initial.memory.closures := by
    unfold Memory.closures
    rfl
  have h : Reached {} (fun _ => .unknown) listOfStruct :=
    .changed .initial rfl hclosures rfl rfl rfl rfl
  have hroot : listOfStruct.root = listOfStruct.activation.context := by
    unfold listOfStruct State.initial
    rfl
  unfold structInList
  rw [hroot]
  exact h.assigned "cells" (.list ⟨0⟩)

/-- An element that a list does not have. -/
theorem failed_assignment_index_out_of_range :
    let code : Statement :=
      .mk 1 (.assign [.index (.var "cells") (.literal (.int 7))] [.literal (.int 0)])
    Reached {} (fun _ => .unknown) structInList ∧
      CallsNothing {} (fun _ => .unknown) 1 code structInList ∧
      ∃ error t, (engine {} (fun _ => .unknown) 1).execStatement code structInList =
        (.raised error, t) ∧ Unchanged structInList t := by
  intro code
  have hlookup : (structInList.toStore.lookup structInList.activation.context
      "cells").toOption.bind Value.list? = some ⟨0⟩ := by
    decide +kernel
  have hraised : ((engine {} (fun _ => .unknown) 1).execStatement code structInList).1.cause? =
      some (.indexRange .list) := by
    decide +kernel
  have hreached := reached_structInList
  have hcalls : CallsNothing {} (fun _ => .unknown) 1 code structInList :=
    execStatement_setElement _ _ (Value.eq_of_list? hlookup)
  obtain ⟨error, hrun, -⟩ := Outcome.exists_of_cause? hraised
  refine ⟨hreached, hcalls, error, _, hrun, ?_⟩
  rcases hreached.failed_assignment hcalls hrun with h | ⟨htarget, -⟩
  · exact h
  · cases htarget

def structInTuple (e : Engine) : State :=
  (e.execStatements [
    .mk 1 (.classDecl "P" none [] true),
    .mk 2 (.assign [.var "t"] [.tuple [.call (.var "P") [] []]])] .initial).2

/-- The assignment fails, and the element has the field that it did not have before. -/
theorem failed_assignment_sets_field_in_tuple :
    let e := engine {} (fun _ => .unknown) 4
    let place : Expr := .attr (.index (.var "t") (.literal (.int 0))) "v"
    ∃ error t before s u,
      e.execStatement (.mk 3 (.assign [place] [.literal (.int 5)])) (structInTuple e) =
        (.raised error, t) ∧
      error.raised = .cause (.noItemAssignment "tuple") ∧
      e.evalExpr place (structInTuple e) = (.raised before, s) ∧
      before.raised = .cause (.noAttribute "P" "v") ∧
      e.evalExpr place t = (.ok (.int 5), u) := by
  intro e place
  have hbefore : (e.evalExpr place (structInTuple e)).1.cause? =
      some (.noAttribute "P" "v") := by
    decide +kernel
  have hfails : (e.execStatement (.mk 3 (.assign [place] [.literal (.int 5)]))
      (structInTuple e)).1.cause? = some (.noItemAssignment "tuple") := by
    decide +kernel
  have hafter : (e.evalExpr place (e.execStatement (.mk 3 (.assign [place] [.literal (.int 5)]))
      (structInTuple e)).2).1.int? = some 5 := by
    decide +kernel
  obtain ⟨before, hbefore, hmissing⟩ := Outcome.exists_of_cause? hbefore
  obtain ⟨error, hfails, hrefused⟩ := Outcome.exists_of_cause? hfails
  exact ⟨error, _, before, _, _, hfails, hrefused, hbefore, hmissing, Outcome.eq_of_int? hafter⟩

end Classlet
