import Classlet.Proofs.Termination.Operations

/-! # Built-in functions and classes end

The text of a sequence shows its elements, which ends for the same reason as comparing them
(`Halts.repr`).  All other built-in functions and classes convert, show or unpack their
arguments. -/

namespace Classlet

open Eval

variable {P : Program} {s t : State} {b : Nat}

/-- The text of a value can be asked for from now on. -/
def Displays (P : Program) (s : State) (v : Value) : Prop :=
  ∀ t, s.Reaches P t → Halts P (fun e => e.repr v) t Anything

theorem Displays.later {v : Value} (h : Displays P s v) (ht : s.Reaches P t) : Displays P t v :=
  fun u hu => h u (ht.trans hu)

/-- The values of keyword arguments fit. -/
def KeywordsFit (keywords : KeywordValues) (m : Memory) : Prop :=
  ∀ k ∈ keywords, k.2.FitsIn m

theorem State.Reaches.keywordsFit {keywords : KeywordValues} (h : s.Reaches P t)
    (hk : KeywordsFit keywords s.memory) : KeywordsFit keywords t.memory :=
  fun k hm => h.fits (hk k hm)

namespace Halts

/-! ### Texts -/

theorem reprAll : ∀ {vs : List Value} {s : State}, s.Tame P → (∀ v ∈ vs, Displays P s v) →
    Halts P (fun e => reprAll e vs) s Anything
  | [], _, hs, _ => .pure hs trivial
  | v :: vs, s, hs, hvs => by
      refine .bind (hvs v List.mem_cons_self s (.refl hs)) fun text t ht _ => ?_
      refine .bind (reprAll ht.tame fun w hw => ?_) fun _ _ hu _ => .pure hu.tame trivial
      exact (hvs w (List.mem_cons_of_mem _ hw)).later ht

theorem sequenceText (hs : s.Tame P) {v : Value}
    (hparts : ∀ a ∈ s.memory.parts v, Displays P s a) :
    Halts P (fun e => sequenceText e v) s Anything := by
  unfold Classlet.sequenceText
  cases v
  case list =>
    exact .readMemory_bind (.bind (reprAll hs hparts) fun _ _ ht _ => .pure ht.tame trivial)
  case tuple => exact .bind (reprAll hs hparts) fun _ _ ht _ => .pure ht.tame trivial
  all_goals exact .readMemory hs trivial

section operators
variable (hm : P.MethodsHalt b) (hs : s.Ready P b)
include hm hs

/-- The text of a value, if its elements can be shown. -/
theorem reprOperation {v : Value} (hv : v.Fits s)
    (hparts : ∀ a ∈ s.memory.parts v, Displays P s a) :
    Halts P (fun e => reprOperation e v) s Anything := by
  unfold Classlet.reprOperation
  cases v
  case str => exact .pure hs.tame trivial
  case «instance» i =>
    refine .bind (userConversion hm hs hv .repr) fun result t ht _ => ?_
    split
    · exact .pure ht.tame trivial
    · exact .readMemory ht.tame trivial
  all_goals exact sequenceText hs.tame hparts

end operators

theorem repr (hm : P.MethodsHalt b) (hs : s.Ready P b) {v : Value} (hv : v.Fits s) :
    Halts P (fun e => Classlet.reprOperation e v) s Anything := by
  refine State.Ready.parts_induction (C := fun s v =>
    Halts P (fun e => Classlet.reprOperation e v) s Anything) (fun s v hs hv hparts => ?_) s v hs hv
  exact reprOperation hm hs hv fun a ha t ht => (hparts a ha t ht).step fun _ => rfl

section operators
variable (hm : P.MethodsHalt b) (hs : s.Ready P b)
include hm hs

/-- The engine shows the elements of a value that fits. -/
theorem displays_parts {v : Value} (hv : v.Fits s) : ∀ a ∈ s.memory.parts v, Displays P s a :=
  fun a ha _ ht =>
    (repr hm (ht.ready hs) (ht.fits (hs.tame.allFit_parts hv a ha))).step fun _ => rfl

theorem strOperation {v : Value} (hv : v.Fits s) :
    Halts P (fun e => strOperation e v) s Anything := by
  unfold Classlet.strOperation
  cases v
  case str => exact .pure hs.tame trivial
  case «instance» i =>
    refine .bind (userConversion hm hs hv .str) fun result t ht _ => ?_
    rcases result with _ | (_ | _ | _) <;>
      first
      | exact .pure ht.tame trivial
      | exact repr hm (ht.ready hs) (ht.fits hv)
  all_goals exact sequenceText hs.tame (displays_parts hm hs hv)

/-! ### Built-in functions -/

omit hm in
theorem keywordText (keywords : KeywordValues) (name omitted : String) :
    Halts P (fun _ => keywordText keywords name omitted) s Anything := by
  unfold Classlet.keywordText
  split
  · exact .pure hs.tame trivial
  · exact .pure hs.tame trivial
  · exact .pure hs.tame trivial
  · exact .failWithType hs.tame _ _

omit hs in
theorem strAll : ∀ {vs : List Value} {s : State}, s.Ready P b → AllFit vs s.memory →
    Halts P (fun e => strAll e vs) s Anything
  | [], _, hs, _ => .pure hs.tame trivial
  | v :: vs, _, hs, hvs => by
      refine .bind (strOperation hm hs (hvs v List.mem_cons_self)) fun _ _ ht _ => ?_
      refine .bind (strAll (ht.ready hs) (ht.allFit fun w hw => ?_)) fun _ _ hu _ =>
        .pure hu.tame trivial
      exact hvs w (List.mem_cons_of_mem _ hw)

theorem printValues {arguments : List Value} (hargs : AllFit arguments s.memory)
    (keywords : KeywordValues) : Halts P (fun e => printValues e arguments keywords) s
      Value.FitsIn := by
  refine .bind (keywordText hs _ _ _) fun _ t ht _ => ?_
  refine .bind (keywordText (ht.ready hs) _ _ _) fun _ u hu _ => ?_
  have hready := hu.ready (ht.ready hs)
  refine .bind (strAll hm hready ((ht.trans hu).allFit hargs)) fun _ w hw _ => ?_
  refine .bind (.modify hw.tame ?_ rfl) fun _ x hx _ => .pure hx.tame trivial
  exact isolated_modify fun _ => rfl

theorem assertTrue {condition : Value} (hcondition : condition.Fits s) {text : Option Value}
    (htext : FitsIf text s.memory) :
    Halts P (fun e => assertTrue e condition text) s Value.FitsIn := by
  unfold Classlet.assertTrue
  refine .bind (truthy hm hs hcondition) fun holds t ht _ => ?_
  refine .ite (fun _ => .pure ht.tame trivial) fun _ => ?_
  cases text with
  | some v =>
      exact .bind (strOperation hm (ht.ready hs) (ht.fits (htext v rfl))) fun _ _ hu _ =>
        .fail hu.tame _
  | none => exact .bind (.pure ht.tame (Q := Anything) trivial) fun _ _ hu _ => .fail hu.tame _

theorem callBuiltin {f : Builtin} (hf : f ≠ .append) {arguments : List Value}
    (hargs : AllFit arguments s.memory) (keywords : KeywordValues) :
    Halts P (fun e => callBuiltin e f arguments keywords) s Value.FitsIn := by
  refine .ofExcept_bind hs.tame fun _ _ => ?_
  have hnil : Halts P (fun _ => Pure.pure Value.nil) s Value.FitsIn := .pure hs.tame trivial
  unfold runBuiltin
  cases f
  case append => exact absurd rfl hf
  case print => exact printValues hm hs hargs keywords
  case isinstance =>
    rcases arguments with _ | ⟨v, _ | ⟨w, more⟩⟩
    case cons.cons =>
      cases w <;> cases more
      case ofClass.nil =>
        exact .readMemory hs.tame (f := fun m => Value.bool (m.isA v.classRef _)) trivial
      all_goals exact .fail hs.tame _
    all_goals exact .fail hs.tame _
  all_goals rcases arguments with _ | ⟨v, _ | ⟨text, _ | _⟩⟩
  case len.cons.nil =>
    exact .bind (length hm hs (hargs v List.mem_cons_self)) fun _ _ ht _ => .pure ht.tame trivial
  case repr.cons.nil =>
    exact .bind (repr hm hs (hargs v List.mem_cons_self)) fun _ _ ht _ => .pure ht.tame trivial
  case type.cons.nil =>
    exact .pure hs.tame (hs.tame.memory.classRef_lt (hargs v List.mem_cons_self))
  case assert.cons.nil => exact assertTrue hm hs (hargs v List.mem_cons_self) .none
  case assert.cons.cons.nil =>
    exact assertTrue hm hs (hargs v List.mem_cons_self)
      (.some (hargs text (List.mem_cons_of_mem _ List.mem_cons_self)))
  all_goals exact hnil

/-! ### Built-in classes -/

theorem makeInt {v : Value} (hv : v.Fits s) : Halts P (fun e => makeInt e v) s Value.FitsIn := by
  unfold Classlet.makeInt
  cases v
  case int => exact .pure hs.tame trivial
  case bool => exact .pure hs.tame trivial
  case real =>
    exact .ite (fun _ => .pure hs.tame trivial) fun _ => .fail hs.tame _
  case str text =>
    dsimp only
    split
    · exact .pure hs.tame trivial
    · exact .fail hs.tame _
  case «instance» => exact convert hm hs hv .int
  all_goals exact .failWithType hs.tame _ _

omit hm in
theorem makeReal (v : Value) : Halts P (fun _ => makeReal v) s Value.FitsIn := by
  unfold Classlet.makeReal
  split
  case h_4 =>
    split
    · exact .pure hs.tame trivial
    · exact .fail hs.tame _
  case h_5 => exact .failWithType hs.tame _ _
  all_goals exact .pure hs.tame trivial

omit hm hs in
theorem fitsIf_of_singleArgument {name : String} {arguments : List Value}
    {keywords : KeywordValues} {o : Option Value} {m : Memory} (hargs : AllFit arguments m)
    (h : singleArgument name arguments keywords = .ok o) : FitsIf o m := by
  unfold singleArgument at h
  split at h
  · cases h
  · split at h
    · cases h
      exact .none
    · cases h
      exact .some (hargs _ List.mem_cons_self)
    · cases h

omit hm hs in
theorem fitsIf_of_errorMessage {name : String} {arguments : List Value}
    {keywords : KeywordValues} {o : Option Value} {m : Memory} (hargs : AllFit arguments m)
    (hkeywords : KeywordsFit keywords m) (h : errorMessage name arguments keywords = .ok o) :
    FitsIf o m := by
  unfold errorMessage at h
  split at h
  · rename_i v hv
    split at h
    · cases h
    · split at h
      · cases h
      · cases h
        unfold keyword? at hv
        obtain ⟨k, hk, rfl⟩ := Option.map_eq_some_iff.mp hv
        exact .some (hkeywords k (List.mem_of_find?_eq_some hk))
  · exact fitsIf_of_singleArgument hargs h

theorem makeError {c : ClassRef} (hc : c.index < s.memory.classes.size) {arguments : List Value}
    (hargs : AllFit arguments s.memory) {keywords : KeywordValues}
    (hkeywords : KeywordsFit keywords s.memory) :
    Halts P (fun e => makeError e c arguments keywords) s Value.FitsIn := by
  have hrest : ∀ (message : String) (t : State), s.Reaches P t → Anything message t.memory →
      Halts P (fun _ => do
        let i ← Eval.remember fun m => m.newInstance c [("message", .str message)]
        Pure.pure (Value.instance i)) t Value.FitsIn := by
    intro message t ht _
    refine .bind (.newInstance ht.tame c fun p hp => ?_) fun i u hu hi => .pure hu.tame ?_
    · rw [List.mem_singleton.mp hp]
      trivial
    · show i.ofClass.index < _
      rw [hi]
      exact hc.trans_le ((ht.trans hu).keeps.classes_size_le)
  refine .readMemory_bind (.ofExcept_bind hs.tame fun text htext => ?_)
  cases text with
  | none => exact .bind (.pure hs.tame (Q := Anything) trivial) hrest
  | some v =>
      exact .bind (strOperation hm hs (fitsIf_of_errorMessage hargs hkeywords htext v rfl)) hrest

theorem construct (construction : Construction) {c : ClassRef}
    (hc : c.index < s.memory.classes.size) {arguments : List Value}
    (hargs : AllFit arguments s.memory) {keywords : KeywordValues}
    (hkeywords : KeywordsFit keywords s.memory) :
    Halts P (fun e => construct e construction c arguments keywords) s Value.FitsIn := by
  cases construction
  case error => exact makeError hm hs hc hargs hkeywords
  all_goals
    unfold Classlet.construct
    refine .readMemory_bind (.ofExcept_bind hs.tame fun argument hargument => ?_)
    have hfits := fitsIf_of_singleArgument hargs hargument
    rcases argument with _ | v
  case bool.some => exact .bind (truthy hm hs (hfits v rfl)) fun _ _ ht _ => .pure ht.tame trivial
  case int.some => exact makeInt hm hs (hfits v rfl)
  case real.some => exact makeReal hs v
  case str.some =>
    exact .bind (strOperation hm hs (hfits v rfl)) fun _ _ ht _ => .pure ht.tame trivial
  case list.none => exact .newListOf hs.tame AllFit.nil
  case list.some =>
    exact .bind (elementsOf hm hs (hfits v rfl)) fun _ _ ht hvs => .newListOf ht.tame hvs
  case tuple.some =>
    exact .bind (elementsOf hm hs (hfits v rfl)) fun _ _ ht hvs => .pure ht.tame hvs.tuple
  all_goals exact .pure hs.tame trivial

end operators

end Halts

end Classlet
