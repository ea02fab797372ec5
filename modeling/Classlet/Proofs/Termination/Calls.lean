import Classlet.Proofs.Termination.Builtins

/-! # Calls end

The body of a function runs one level deeper than its call, so a call ends if code ends at all lower
levels (`Program.CodeHalts`).  The member `init` of a class can be a class again, and then the call
of the class goes on with that class at the same level.  Attributes are older than their class, so
the induction is on the class (`Halts.instantiate`). -/

namespace Classlet

open Eval Fragment
open Grammar (Surroundings)

variable {P : Program} {α : Type} {s t : State} {b : Nat}

/-- A value with which statements complete fits. -/
abbrev Completion.FitsIn (completion : Completion) (m : Memory) : Prop := completion.value.FitsIn m

/-- Statements that the program allows end at a level of at most `b`. -/
def Program.CodeHalts (P : Program) (b : Nat) : Prop :=
  ∀ (w : Surroundings) (body : List Statement), Throughout P.Allows (ofBody w body) →
    ∀ s : State, s.Ready P b → Halts P (fun e => e.execStatements body) s Completion.FitsIn

/-- Statements over an engine of the program are confined to the running code. -/
theorem Program.confined_execStatements (body : List Statement) (m : Nat) :
    Confined Activation.context ((P.engine m).execStatements body) :=
  rules.execStatements (rules.engine P.settings P.texts.loader m) body

theorem State.Reaches.stays_open (h : s.Reaches P t) {c : ContextId} (hc : s.scopes.Open c) :
    t.scopes.Open c := by
  obtain ⟨own, h⟩ := h.settles
  exact h.stays_open hc

/-! ### Arguments -/

def SlotsFit (slots : List Slot) (m : Memory) : Prop := ∀ slot ∈ slots, FitsIf slot.2 m

theorem State.Reaches.slotsFit {slots : List Slot} (h : s.Reaches P t)
    (hslots : SlotsFit slots s.memory) : SlotsFit slots t.memory :=
  fun slot hs v hv => h.fits (hslots slot hs v hv)

theorem SlotsFit.cons {slot : Slot} {slots : List Slot} {m : Memory} (hslot : FitsIf slot.2 m)
    (hslots : SlotsFit slots m) : SlotsFit (slot :: slots) m :=
  List.forall_mem_cons.mpr ⟨hslot, hslots⟩

theorem slotsFit_fillPositional {m : Memory} : ∀ (params : List ParamSpec) {arguments : List Value},
    AllFit arguments m → SlotsFit (fillPositional params arguments) m
  | [], _, _ => fun _ h => by cases h
  | _ :: ps, [], h => .cons .none (slotsFit_fillPositional ps h)
  | _ :: ps, v :: _, h =>
      .cons (.some (h v List.mem_cons_self))
        (slotsFit_fillPositional ps fun w hw => h w (List.mem_cons_of_mem _ hw))

theorem slotsFit_of_fillKeyword {function keyword : String} {v : Value} {m : Memory}
    (hv : v.FitsIn m) : ∀ {slots filled : List Slot}, SlotsFit slots m →
      fillKeyword function keyword v slots = .ok filled → SlotsFit filled m
  | [], _, _, h => by cases h
  | (p, slot) :: more, filled, hslots, h => by
      obtain ⟨hslot, hmore⟩ := List.forall_mem_cons.mp hslots
      unfold fillKeyword at h
      split at h
      · cases slot with
        | some w => cases h
        | none =>
            cases h
            exact .cons (.some hv) hmore
      · cases hrest : fillKeyword function keyword v more with
        | error c =>
            rw [hrest] at h
            cases h
        | ok rest =>
            rw [hrest] at h
            cases h
            exact .cons hslot (slotsFit_of_fillKeyword hv hmore hrest)

theorem slotsFit_of_fillKeywords {function : String} {m : Memory} :
    ∀ {keywords : KeywordValues} {slots filled : List Slot}, KeywordsFit keywords m →
      SlotsFit slots m → fillKeywords function keywords slots = .ok filled → SlotsFit filled m
  | [], _, _, _, hslots, h => by
      cases h
      exact hslots
  | (keyword, v) :: more, slots, filled, hkeywords, hslots, h => by
      obtain ⟨hv, hmore⟩ := List.forall_mem_cons.mp hkeywords
      rw [fillKeywords] at h
      split at h
      · rename_i next hnext
        exact slotsFit_of_fillKeywords hmore (slotsFit_of_fillKeyword hv hslots hnext) h
      · cases h

theorem Function.fits_of_arrange {f : Function} {arguments : List Value} {keywords : KeywordValues}
    {a : Arrangement} {m : Memory} (h : f.arrange arguments keywords = .ok a)
    (hargs : AllFit arguments m) (hkeywords : KeywordsFit keywords m) :
    SlotsFit a.slots m ∧ ∀ p vs, a.rest = some (p, vs) → AllFit vs m := by
  unfold Function.arrange at h
  dsimp only at h
  split at h
  · cases h
  · cases hfill : fillKeywords f.name keywords (fillPositional f.fixed arguments) with
    | error c =>
        rw [hfill] at h
        cases h
    | ok slots =>
        rw [hfill] at h
        cases h
        refine ⟨slotsFit_of_fillKeywords hkeywords (slotsFit_fillPositional _ hargs) hfill, ?_⟩
        rintro p vs hrest v hv
        obtain ⟨_, -, he⟩ := Option.map_eq_some_iff.mp hrest
        obtain ⟨-, rfl⟩ := Prod.mk.inj he
        exact hargs v (List.mem_of_mem_drop hv)

namespace Halts

section arguments
variable (f : Function)

theorem checkArgument (hs : s.Tame P) (p : ParamSpec) (v : Value) :
    Halts P (fun _ => checkArgument f p v) s Anything := by
  refine .of_ends ?_
  unfold Classlet.checkArgument
  dsimp only
  split
  · exact .ok (.refl hs) trivial
  · exact .raised (.refl hs) trivial

theorem checkArguments (p : ParamSpec) : ∀ (vs : List Value) {s : State}, s.Tame P →
    Halts P (fun _ => checkArguments f p vs) s Anything
  | [], _, hs => .pure hs trivial
  | v :: vs, _, hs => .bind (checkArgument f hs p v) fun _ _ ht _ => checkArguments p vs ht.tame

variable {c : ContextId}

theorem bindSlots : ∀ (shared : Bool) (slots : List Slot) {s : State}, s.Tame P →
    s.scopes.Open c → SlotsFit slots s.memory →
      Halts P (fun _ => bindSlots f c shared slots) s Anything
  | _, [], _, hs, _, _ => .pure hs trivial
  | _, (p, none) :: _, _, hs, _, _ => .fail hs _
  | shared, (p, some v) :: more, s, hs, hc, hslots => by
      obtain ⟨hv, hmore⟩ := List.forall_mem_cons.mp hslots
      refine .bind (checkArgument f hs p v) fun _ t ht _ => ?_
      have hrest : ∀ (_ : Unit) u, t.Reaches P u → True →
          Halts P (fun _ => Classlet.bindSlots f c false more) u Anything := fun _ u hu _ =>
        bindSlots false more hu.tame ((ht.trans hu).stays_open hc) ((ht.trans hu).slotsFit hmore)
      cases shared with
      | true =>
          exact .bind (.defineShared ht.tame (ht.stays_open hc).1 p.name (ht.fits (hv v rfl))) hrest
      | false =>
          exact .bind (.define ht.tame (ht.stays_open hc).1 p.name (ht.fits (hv v rfl))) hrest

theorem bindRest (hs : s.Tame P) (hc : s.scopes.Open c) {rest : Option (ParamSpec × List Value)}
    (hrest : ∀ p vs, rest = some (p, vs) → AllFit vs s.memory) :
    Halts P (fun _ => bindRest f c rest) s Anything := by
  cases rest with
  | none => exact .pure hs trivial
  | some r =>
      obtain ⟨p, vs⟩ := r
      refine .bind (checkArguments f p vs hs) fun _ t ht _ => ?_
      exact .define ht.tame (ht.stays_open hc).1 p.name (ht.allFit (hrest p vs rfl)).tuple

theorem bindArguments (hs : s.Tame P) (hc : s.scopes.Open c) (hasReceiver : Bool)
    {arguments : List Value} (hargs : AllFit arguments s.memory) {keywords : KeywordValues}
    (hkeywords : KeywordsFit keywords s.memory) :
    Halts P (fun _ => bindArguments f c hasReceiver arguments keywords) s Anything := by
  refine .ofExcept_bind hs fun arrangement harrange => ?_
  obtain ⟨hslots, hrest⟩ := Function.fits_of_arrange harrange hargs hkeywords
  refine .bind (bindSlots f hasReceiver _ hs hc hslots) fun _ t ht _ => ?_
  exact bindRest f ht.tame (ht.stays_open hc) fun p vs h => ht.allFit (hrest p vs h)

end arguments

/-! ### Functions -/

section calls
variable (hbelow : ∀ k < b, P.CodeHalts k)
include hbelow

/-- The body of a function runs at a lower level, if the limit of calls is not reached. -/
theorem runBody (hs : s.Ready P b) (hdepth : s.depth < P.settings.maxCallDepth) (f : Function)
    (hf : (Fragment.function f.decl).Everywhere P.Allows) {c : ContextId} (hc : s.scopes.Open c) :
    Halts P (fun e => runBody e f c) s Completion.FitsIn := by
  have hbody : Throughout P.Allows (ofBody .function f.decl.body) := fun x hx =>
    hf.parts x (List.mem_append_right _ hx)
  refine .congr (Halts.withActivation (X := fun e => e.execStatements f.decl.body) hs.tame hc
    (P.confined_execStatements _) ?_) fun _ => rfl
  refine hbelow (P.level s - 1) ?_ .function _ hbody _ ⟨?_, hs.inside, ?_⟩
  · have hle := hs.level
    unfold Program.level at hle ⊢
    omega
  · exact { hs.tame with sound := { hs.tame.sound with here := hc } }
  · show P.remaining s * _ + (P.settings.maxCallDepth - (s.depth + 1)) ≤ _
    unfold Program.level
    omega

theorem callFunction (hs : s.Ready P b) {r : FunctionRef} {f : Function}
    (hr : s.memory.function? r = some f) (hf : (Fragment.function f.decl).Everywhere P.Allows)
    (hasReceiver : Bool) {arguments : List Value} (hargs : AllFit arguments s.memory)
    {keywords : KeywordValues} (hkeywords : KeywordsFit keywords s.memory) :
    Halts P (fun e => callFunction e r f hasReceiver arguments keywords) s Value.FitsIn := by
  -- what is run in the context of the call
  let inside (c : ContextId) (e : Engine) : Eval Completion :=
    Classlet.bindArguments f c hasReceiver arguments keywords >>= fun _ => Classlet.runBody e f c
  have hcall : s.depth < P.settings.maxCallDepth → Halts P (fun e =>
      enterContext r f >>= fun c => Eval.releasing c (inside c e)) s Completion.FitsIn := by
    intro hdepth
    refine Halts.entering (X := inside) hs.tame hr (fun c m => ?_) ?_
    · exact (confined_bindArguments f c hasReceiver arguments keywords).bind fun _ =>
        confined_runBody f (P.confined_execStatements · m) c
    · intro c t ht hc
      refine .bind (bindArguments f ht.tame hc hasReceiver (ht.allFit hargs)
        (ht.keywordsFit hkeywords)) fun _ u hu _ => ?_
      have hall := ht.trans hu
      exact runBody hbelow (hall.ready hs) (hall.depth ▸ hdepth) f hf (hu.stays_open hc)
  by_cases hdepth : P.settings.maxCallDepth ≤ s.depth
  · refine (Halts.fail hs.tame (.callDepth P.settings.maxCallDepth)).congr fun m => ?_
    simp only [Classlet.callFunction, Program.engine_settings, bind_apply, Eval.read, if_pos hdepth]
  · refine Halts.congr (.bind (hcall (by omega)) (F := fun completion _ => do
      Eval.ofExcept (← Eval.readMemory fun m => checkResults m f completion.value)
      Pure.pure completion.value) fun completion t ht hv => ?_) fun m => ?_
    · exact .readMemory_bind (.ofExcept_bind ht.tame fun _ _ => .pure ht.tame hv)
    · rw [← Eval.bind_assoc]
      simp only [Classlet.callFunction, Program.engine_settings]
      rw [bind_apply]
      simp only [Eval.read, if_neg hdepth]
      rfl

theorem callReference (hs : s.Ready P b) (r : FunctionRef) (hasReceiver : Bool)
    {arguments : List Value} (hargs : AllFit arguments s.memory) {keywords : KeywordValues}
    (hkeywords : KeywordsFit keywords s.memory) :
    Halts P (fun e => callReference e r hasReceiver arguments keywords) s Value.FitsIn := by
  refine .readMemory_bind (f := fun m => m.function? r) ?_
  cases hf : s.memory.function? r with
  | none => exact .pure hs.tame trivial
  | some f =>
      have hallowed := hs.tame.memory.functions r.index f hf
      exact callFunction hbelow hs hf hallowed hasReceiver hargs hkeywords

end calls

end Halts

/-- Functions of classes end if code ends at all lower levels. -/
theorem Program.methodsHalt (hbelow : ∀ k < b, P.CodeHalts k) : P.MethodsHalt b :=
  fun f _ _ hs hargs =>
    (Halts.callReference hbelow hs f true hargs fun _ h => by cases h).step fun _ => rfl

namespace Halts

/-! ### Methods and classes -/

section calls
variable (hbelow : ∀ k < b, P.CodeHalts k)
include hbelow

theorem callMethodReference (hs : s.Ready P b) (r : MethodRef) {arguments : List Value}
    (hargs : AllFit arguments s.memory) {keywords : KeywordValues}
    (hkeywords : KeywordsFit keywords s.memory) :
    Halts P (fun e => callMethodReference e r arguments keywords) s Value.FitsIn := by
  refine .readMemory_bind (f := fun m => m.method? r) ?_
  cases hmethod : s.memory.method? r with
  | none => exact .pure hs.tame trivial
  | some method =>
      obtain ⟨receiver, callable⟩ := method
      obtain ⟨hreceiver, hcallable⟩ := hs.tame.memory.methods r.index _ hmethod
      have hall : AllFit (receiver :: arguments) s.memory := .cons hreceiver hargs
      cases callable with
      | function f => exact callReference hbelow hs f true hall hkeywords
      | builtin f => exact callBuiltin (P.methodsHalt hbelow) hs hcallable hall keywords

theorem callValue_of {callee : Value} (hs : s.Ready P b) (hcallee : callee.Fits s)
    (hasReceiver : Bool) {arguments : List Value} (hargs : AllFit arguments s.memory)
    {keywords : KeywordValues} (hkeywords : KeywordsFit keywords s.memory)
    (hclass : ∀ c, callee = .ofClass c →
      Halts P (fun e => instantiate e c arguments keywords) s Value.FitsIn) :
    Halts P (fun e => callValue e callee hasReceiver arguments keywords) s Value.FitsIn := by
  unfold callValue
  cases callee
  case function f => exact callReference hbelow hs f hasReceiver hargs hkeywords
  case method r => exact callMethodReference hbelow hs r hargs hkeywords
  case builtin f => exact callBuiltin (P.methodsHalt hbelow) hs hcallee hargs keywords
  case ofClass c => exact hclass c rfl
  all_goals exact .failWithType hs.tame _ _

omit hbelow in
/-- An instance is made, if the member `init` ends. -/
theorem makeInstance (hs : s.Ready P b) {c : ClassRef} (hc : c.index < s.memory.classes.size)
    {init : Option Value} {arguments : List Value} {keywords : KeywordValues}
    (hinit : ∀ method i t, init = some method → i.ofClass = c → s.Reaches P t →
      Halts P (fun e => e.call method true (.instance i :: arguments) keywords) t Value.FitsIn) :
    Halts P (fun e => makeInstance e c init arguments keywords) s Value.FitsIn := by
  refine .bind (.newInstance hs.tame c fun _ hp => by cases hp) fun i t ht hi => ?_
  have hfits : ∀ u, s.Reaches P u → (Value.instance i).Fits u := by
    intro u hu
    show i.ofClass.index < _
    rw [hi]
    exact hc.trans_le hu.keeps.classes_size_le
  cases init with
  | some method =>
      exact .bind (hinit method i t rfl hi ht) fun _ u hu _ => .pure hu.tame (hfits u (ht.trans hu))
  | none =>
      exact .ite (fun _ => .pure ht.tame (hfits t ht)) fun _ => .readMemory_bind (.fail ht.tame _)

/-- **The call of a class ends**, whatever its member `init` is. -/
theorem instantiate {c : ClassRef} {arguments : List Value} {keywords : KeywordValues}
    (hs : s.Ready P b) (hc : c.index < s.memory.classes.size) (hargs : AllFit arguments s.memory)
    (hkeywords : KeywordsFit keywords s.memory) :
    Halts P (fun e => instantiate e c arguments keywords) s Value.FitsIn := by
  -- a class among the attributes of a class is older
  induction hn : c.index using Nat.strong_induction_on generalizing c arguments s with
  | _ n older =>
      refine .readMemory_bind (f := fun m => m.findAttribute? c "init") ?_
      cases hfound : s.memory.findAttribute? c "init" with
      | some method =>
          have hmethod := hs.tame.memory.attribute_within hfound
          refine makeInstance hs hc fun method' i t he hi ht => ?_
          cases he
          have hi : i.ofClass.index < t.memory.classes.size := by
            rw [hi]
            exact hc.trans_le ht.keeps.classes_size_le
          have hall : AllFit (.instance i :: arguments) t.memory := .cons hi (ht.allFit hargs)
          have hready := ht.ready hs
          refine (callValue_of hbelow hready (ht.fits (hmethod.mono le_rfl hc.le)) true hall
            (ht.keywordsFit hkeywords) fun d hd => ?_).step fun _ => rfl
          subst hd
          have hlt : d.index < c.index := hmethod
          exact older _ (hn ▸ hlt) hready ((hlt.trans hc).trans_le ht.keeps.classes_size_le) hall
            (ht.keywordsFit hkeywords) rfl
      | none =>
          refine .readMemory_bind (f := fun m => m.findConstruction? c) ?_
          cases s.memory.findConstruction? c with
          | some construction =>
              exact construct (P.methodsHalt hbelow) hs construction hc hargs hkeywords
          | none =>
              refine .readMemory_bind (.ite (fun _ => .fail hs.tame _) fun _ => ?_)
              exact makeInstance hs hc fun _ _ _ he => by cases he

/-- **The call of a value ends.** -/
theorem call {callee : Value} (hs : s.Ready P b) (hcallee : callee.Fits s) (hasReceiver : Bool)
    {arguments : List Value} (hargs : AllFit arguments s.memory) {keywords : KeywordValues}
    (hkeywords : KeywordsFit keywords s.memory) :
    Halts P (fun e => e.call callee hasReceiver arguments keywords) s Value.FitsIn := by
  refine (callValue_of hbelow hs hcallee hasReceiver hargs hkeywords fun c hc => ?_).step
    fun _ => rfl
  subst hc
  exact instantiate hbelow hs hcallee hargs hkeywords

end calls

end Halts

end Classlet
