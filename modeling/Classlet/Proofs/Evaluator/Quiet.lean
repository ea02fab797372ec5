import Classlet.Proofs.Evaluator.Reached
import Classlet.Proofs.Memory.Content

/-! # What runs without calls

`quietEngine` evaluates as the engine does, but stops at the first call and the first import.
Where it comes to the same end as the engine, no code has been called.

Without calls, evaluating an expression adds objects and changes none: the lists and the fields that
there were stay as they are (`Memory.Preserves`), and so do variables, as they always do.  Both
together are `Eval.Harmless`, which is gentle, so that every expression has it over the quiet
engine (`quietEngine_satisfies`). -/

namespace Classlet

open Eval

variable {α β : Type}

/-! ### The quiet engine -/

/-- The engine with some fuel that neither calls nor imports. -/
def quietEngine (settings : Settings) (loader : Loader) : Nat → Engine
  | 0 => spentEngine settings loader
  | fuel + 1 =>
    { settings := settings
      loader := loader
      passes := fuel + 1
      call := fun _ _ _ _ => Eval.stop .outOfFuel
      binary := fun op left right =>
        binaryOperation (quietEngine settings loader fuel) op left right
      repr := fun v => reprOperation (quietEngine settings loader fuel) v
      importModule := fun _ _ => Eval.stop .outOfFuel }

def Engine.IsQuiet (e : Engine) : Prop :=
  ∀ callee hasReceiver arguments keywords,
    e.call callee hasReceiver arguments keywords = Eval.stop .outOfFuel

section quiet
variable (settings : Settings) (loader : Loader)

theorem quietEngine_isQuiet (fuel : Nat) : (quietEngine settings loader fuel).IsQuiet := by
  cases fuel <;> exact fun _ _ _ _ => rfl

theorem quietEngine_satisfies {P : ∀ ⦃α : Type⦄, Eval α → Prop} (h : Gentle P) :
    ∀ fuel : Nat, (quietEngine settings loader fuel).Satisfies P
  | 0 => ⟨fun _ _ _ _ => h.outOfFuel, fun _ _ _ => h.outOfFuel, fun _ => h.outOfFuel,
      fun _ => h.bind (h.read _) fun _ => h.outOfFuel⟩
  | fuel + 1 => by
      have he := quietEngine_satisfies h fuel
      exact ⟨fun _ _ _ _ => h.outOfFuel, h.binaryOperation he, h.reprOperation he,
        fun _ => h.bind (h.read _) fun _ => h.outOfFuel⟩

end quiet

/-! ### Preserved objects -/

namespace Memory

variable {k m n : Memory}

/-- Lists and instances have been added, and nothing has happened to those that were there. -/
structure Preserves (m n : Memory) : Prop where
  lists : m.lists.toList <+: n.lists.toList
  instances : m.instances.toList <+: n.instances.toList

namespace Preserves

theorem refl (m : Memory) : m.Preserves m := ⟨List.prefix_rfl, List.prefix_rfl⟩

theorem trans (h₁ : k.Preserves m) (h₂ : m.Preserves n) : k.Preserves n :=
  ⟨h₁.lists.trans h₂.lists, h₁.instances.trans h₂.instances⟩

theorem elements (h : m.Preserves n) {l : ListRef} (hl : l.index < m.lists.size) :
    n.elements l = m.elements l := by
  have hget := List.prefix_iff_getElem?.mp h.lists l.index hl
  rw [Array.getElem?_toList] at hget
  rw [Memory.elements, Memory.elements, hget, Array.getElem?_eq_getElem hl]
  rfl

theorem fields (h : m.Preserves n) {i : InstanceRef} (hi : i.index < m.instances.size) :
    n.fields i = m.fields i :=
  fieldsAt_eq_of_lt h.instances hi

end Preserves

theorem preserves_copyForBinding (m : Memory) (v : Value) : m.Preserves (m.copyForBinding v).2 where
  lists := by rw [lists_copyForBinding]
  instances := (adds_copyForBinding m v).instances

theorem preserves_newList (m : Memory) (vs : Array Value) : m.Preserves (m.newList vs).2 where
  lists := prefix_push m.lists vs
  instances := List.prefix_rfl

end Memory

/-! ### Harmless computations -/

/-- A computation that began in `s` has ended with all variables, lists and fields as they were. -/
structure Spared (s : State) (r : Outcome α × State) : Prop where
  settles : Settles [] s r
  memory : s.memory.Preserves r.2.memory

namespace Spared

variable {s s' : State} {r : Outcome β × State}

theorem trans {o : Outcome α} (h₁ : Spared s (o, s')) (h₂ : Spared s' r) : Spared s r :=
  ⟨h₁.settles.trans h₂.settles, h₁.memory.trans h₂.memory⟩

theorem refl (hs : s.Sound) {o : Outcome α} (ho : o.NoFault) : Spared s (o, s) :=
  ⟨.refl hs ho, .refl _⟩

theorem raised {o : Outcome α} (h : Spared s (o, s')) (error : RuntimeError) :
    Spared s ((.raised error : Outcome β), s') :=
  ⟨h.settles.outcome (.raised error), h.memory⟩

theorem sound {o : Outcome α} (h : Spared s (o, s')) : s'.Sound := h.settles.sound

end Spared

/-- A computation that adds lists and instances to memory at most. -/
def Eval.Adding ⦃α : Type⦄ (x : Eval α) : Prop := ∀ s : State, s.memory.Preserves (x s).2.memory

theorem adding_of_same {x : Eval α} (h : ∀ s, (x s).2 = s) : Adding x := fun s => by
  rw [h s]
  exact .refl _

theorem Eval.Adding.andThen {x : Eval α} {f : α → Eval β} (hx : Adding x)
    (hf : ∀ a, x.Returns a → Adding (f a)) : Adding (x >>= f) := by
  intro s
  have h := hx s
  rw [bind_apply]
  rcases hr : x s with ⟨a | error | why, s'⟩ <;> rw [hr] at h
  · exact h.trans (hf a ⟨s, s', hr⟩ s')
  · exact h
  · exact h

theorem adding_reclaim : Adding reclaim := by
  intro s
  rcases s.reclaim_cases with ⟨t, ht, hok⟩ | ⟨fault, hfault⟩
  · rw [hok, ht.memory]
    exact .refl _
  · rw [hfault]
    exact .refl _

theorem adding_gentle : Gentle Adding where
  pure _ := adding_of_same fun _ => rfl
  andThen := Adding.andThen
  fail _ := adding_of_same fun _ => rfl
  stop _ _ := adding_of_same fun _ => rfl
  read _ := adding_of_same fun _ => rfl
  copied v := fun s => s.memory.preserves_copyForBinding v
  newList vs := fun s => s.memory.preserves_newList vs
  newMethod _ := fun _ => ⟨List.prefix_rfl, List.prefix_rfl⟩
  captureFunction _ _ _ _ :=
    adding_reclaim.andThen fun _ _ _ => ⟨List.prefix_rfl, List.prefix_rfl⟩

/-- A computation that leaves all variables, lists and fields as they are. -/
def Eval.Harmless ⦃α : Type⦄ (x : Eval α) : Prop := Isolated x ∧ Adding x

theorem harmless_gentle : Gentle Harmless := isolated_closed.toGentle.and adding_gentle

theorem Eval.Harmless.spared {x : Eval α} (h : Harmless x) {s : State} (hs : s.Sound) :
    Spared s (x s) :=
  ⟨h.1 s hs, h.2 s⟩

end Classlet
