import Classlet.Proofs.Termination.Calls

/-! # Expressions end

The induction is on the syntax tree.  Everything that a value leads to is covered by calls and
operators, so each kind of expression ends if its parts do. -/

namespace Classlet

open Eval Fragment

variable {P : Program} {s t : State} {b : Nat}

/-- Expressions of a list are allowed at every depth. -/
abbrev Program.AllowsAll (P : Program) (xs : List Expr) : Prop :=
  Throughout P.Allows (xs.map .expr)

theorem Memory.Tame.export_fits {m : Memory} (h : m.Tame P) {r : ModuleRef} {name : String}
    {v : Value} (hv : (m.moduleInfo r).exports.get? name = some v) : v.FitsIn m := by
  unfold Memory.moduleInfo at hv
  cases hd : m.modules[r.index]? with
  | none =>
      rw [hd] at hv
      cases hv
  | some d =>
      rw [hd] at hv
      exact (h.modules r.index d hd).exports.get? hv

namespace Halts

/-! ### Attributes -/

theorem boundMethod (hs : s.Tame P) {i : InstanceRef} (hi : (Value.instance i).Fits s)
    {method : Callable} (hmethod : method.toValue.Fits s) :
    Halts P (fun _ => getAttribute.bound i method) s Value.FitsIn :=
  .bind (.remember (Q := Anything) hs (isolated_newMethod _) (hs.memory.newMethod hi hmethod) le_rfl
    trivial) fun _ _ ht _ => .pure ht.tame trivial

theorem getAttribute (hs : s.Tame P) {object : Value} (hobject : object.Fits s) (name : String) :
    Halts P (fun _ => getAttribute object name) s Value.FitsIn := by
  unfold Classlet.getAttribute
  split
  case h_1 i =>
    refine .readMemory_bind (f := fun m => m.field? i name) ?_
    cases hfield : s.memory.field? i name with
    | some v => exact .pure hs (hs.memory.field_fits hfield)
    | none =>
        refine .readMemory_bind (f := fun m => m.findAttribute? i.ofClass name) ?_
        cases hfound : s.memory.findAttribute? i.ofClass name with
        | none => exact .failWithType hs _ _
        | some v =>
            have hi : i.ofClass.index < s.memory.classes.size := hobject
            have hv : v.Fits s := (hs.memory.attribute_within hfound).mono le_rfl hi.le
            cases v
            case function f => exact boundMethod hs hobject trivial
            case builtin f => exact boundMethod hs hobject hv
            all_goals exact .pure hs hv
  case h_2 c =>
    have hc : c.index < s.memory.classes.size := hobject
    refine .ite (fun _ => .readMemory hs trivial) fun _ => ?_
    refine .readMemory_bind (f := fun m => m.findAttribute? c name) ?_
    cases hfound : s.memory.findAttribute? c name with
    | none => exact .readMemory_bind (.fail hs _)
    | some v => exact .pure hs ((hs.memory.attribute_within hfound).mono le_rfl hc.le)
  case h_3 r =>
    refine .readMemory_bind (f := fun m => (m.moduleInfo r).exports.get? name) ?_
    cases hfound : (s.memory.moduleInfo r).exports.get? name with
    | none => exact .readMemory_bind (.fail hs _)
    | some v => exact .pure hs (hs.memory.export_fits hfound)
  case h_4 => exact .failWithType hs _ _

theorem setAttribute (hs : s.Tame P) (object : Value) (name : String) {v : Value} (hv : v.Fits s) :
    Halts P (fun _ => setAttribute object name v) s Anything := by
  unfold Classlet.setAttribute
  split
  case h_1 i =>
    exact .remember hs (isolated_closed.bindField i name v) (hs.memory.bindField i name hv)
      (congrArg Array.size (s.memory.lists_bindField i name v)).ge trivial
  case h_2 => exact .readMemory_bind (.fail hs _)
  case h_3 => exact .readMemory_bind (.fail hs _)
  case h_4 => exact .failWithType hs _ _

/-! ### Functions -/

theorem typeOfValue (hs : s.Tame P) (v : Value) : Halts P (fun _ => typeOfValue v) s Anything := by
  unfold Classlet.typeOfValue
  split
  · exact .pure hs trivial
  · exact .failWithType hs _ _

theorem freezeFunction (hs : s.Tame P) {decl : FunctionDecl}
    (hdecl : (Fragment.function decl).Everywhere P.Allows) (params : List ParamSpec)
    (returns : List TypeSpec) :
    Halts P (fun _ => freezeFunction decl params returns) s Anything := by
  have hadds := (Arena.freeze_spec hs.sound.exact s.activation.context).2
  refine .of_ends (.ok (.of_bound hs (isolated_freezeFunction decl params returns s hs.sound)
    (hs.memory.newFunction hdecl) le_rfl fun r hr p hp => ?_) trivial)
  rcases hadds.values_cases hr with ⟨hold, hvalues⟩ | ⟨hnew, -⟩
  · exact ⟨hold, hvalues ▸ hp⟩
  · change p ∈ ((s.scopes.freeze s.activation.context).2.frame r).values at hp
    rw [hnew] at hp
    cases hp

/-- A function that the program allows captures the scopes of the running code. -/
theorem captureFunction (hs : s.Tame P) {decl : FunctionDecl}
    (hdecl : (Fragment.function decl).Everywhere P.Allows) (params : List ParamSpec)
    (returns : List TypeSpec) :
    Halts P (fun _ => captureFunction decl params returns) s Anything :=
  .bind (.reclaim hs) fun _ _ ht _ => .freezeFunction ht.tame hdecl params returns

theorem lookup (hs : s.Tame P) {name : String} (hname : name ≠ Builtin.append.name) :
    Halts P (fun _ s => match s.toStore.lookup s.activation.context name with
      | .ok v => (.ok v, s)
      | .error c => Eval.fail c s) s Value.FitsIn := by
  refine .of_ends ?_
  split
  · rename_i v hv
    exact .ok (.refl hs) (hs.lookup hv hname)
  · exact .raised (.refl hs) trivial

/-! ### Expressions -/

section expressions
variable (hbelow : ∀ k < b, P.CodeHalts k)
include hbelow

set_option linter.unusedSectionVars false

mutual

theorem evalExpr : ∀ (x : Expr) {s : State}, (Fragment.expr x).Everywhere P.Allows →
    s.Ready P b → Halts P (fun e => e.evalExpr x) s Value.FitsIn
  | .literal l, s, _, hs => by
      simp only [Engine.evalExpr]
      cases l <;> exact .pure hs.tame trivial
  | .var name, s, hx, hs => by
      simp only [Engine.evalExpr]
      exact lookup hs.tame hx.here.calm
  | .tuple elements, s, hx, hs => by
      simp only [Engine.evalExpr]
      exact .bind (evalElements elements hx.parts hs) fun _ _ ht hvs => .pure ht.tame hvs.tuple
  | .list elements, s, hx, hs => by
      simp only [Engine.evalExpr]
      exact .bind (evalElements elements hx.parts hs) fun _ _ ht hvs => .newListOf ht.tame hvs
  | .unary op operand, s, hx, hs => by
      simp only [Engine.evalExpr]
      exact .bind (evalExpr operand (throughout_single.mp hx.parts) hs) fun _ _ ht hv =>
        unaryOperation (P.methodsHalt hbelow) (ht.ready hs) op hv
  | .not operand, s, hx, hs => by
      simp only [Engine.evalExpr]
      refine .bind (evalExpr operand (throughout_single.mp hx.parts) hs) fun _ _ ht hv => ?_
      exact .bind (truthy (P.methodsHalt hbelow) (ht.ready hs) hv) fun _ _ hu _ =>
        .pure hu.tame trivial
  | .binary op left right, s, hx, hs => by
      obtain ⟨hleft, hright⟩ := throughout_pair.mp hx.parts
      simp only [Engine.evalExpr]
      refine .bind (evalExpr left hleft hs) fun _ _ ht hv => ?_
      refine .bind (evalExpr right hright (ht.ready hs)) fun _ _ hu hw => ?_
      exact binary (P.methodsHalt hbelow) (hu.ready (ht.ready hs)) op (hu.fits hv) hw
  | .logical op left right, s, hx, hs => by
      obtain ⟨hleft, hright⟩ := throughout_pair.mp hx.parts
      simp only [Engine.evalExpr]
      refine .bind (evalExpr left hleft hs) fun _ _ ht hv => ?_
      refine .bind (truthy (P.methodsHalt hbelow) (ht.ready hs) hv) fun _ _ hu _ => ?_
      exact .ite (fun _ => .pure hu.tame (hu.fits hv)) fun _ =>
        evalExpr right hright (hu.ready (ht.ready hs))
  | .call callee arguments keywords, s, hx, hs => by
      obtain ⟨hcallee, hmore⟩ := throughout_cons.mp hx.parts
      obtain ⟨harguments, hkeywords⟩ := throughout_append.mp hmore
      simp only [Engine.evalExpr]
      refine .bind (evalExpr callee hcallee hs) fun _ t ht hf => ?_
      refine .bind (evalAll arguments harguments (ht.ready hs)) fun _ u hu hvs => ?_
      refine .bind (evalKeywords keywords [] hkeywords (hu.ready (ht.ready hs))
        fun _ h => by cases h) fun _ w hw hks => ?_
      exact call hbelow (hw.ready (hu.ready (ht.ready hs))) ((hu.trans hw).fits hf) false
        (hw.allFit hvs) hks
  | .attr object name, s, hx, hs => by
      simp only [Engine.evalExpr]
      exact .bind (evalExpr object (throughout_single.mp hx.parts) hs) fun _ _ ht hv =>
        getAttribute ht.tame hv name
  | .index object index, s, hx, hs => by
      obtain ⟨hobject, hindex⟩ := throughout_pair.mp hx.parts
      simp only [Engine.evalExpr]
      refine .bind (evalExpr object hobject hs) fun _ _ ht hv => ?_
      refine .bind (evalExpr index hindex (ht.ready hs)) fun _ _ hu hi => ?_
      exact indexOperation (P.methodsHalt hbelow) (hu.ready (ht.ready hs)) (hu.fits hv) hi
  | .slice object start stop, s, hx, hs => by
      obtain ⟨hobject, hbounds⟩ := throughout_cons.mp hx.parts
      rw [List.map_append] at hbounds
      obtain ⟨hstart, hstop⟩ := throughout_append.mp hbounds
      simp only [Engine.evalExpr]
      refine .bind (evalExpr object hobject hs) fun _ _ ht hv => ?_
      refine .bind (evalBound start hstart (ht.ready hs)) fun _ _ hu _ => ?_
      refine .bind (evalBound stop hstop (hu.ready (ht.ready hs))) fun _ _ hw _ => ?_
      exact sliceOperation (hw.ready (hu.ready (ht.ready hs))) ((hu.trans hw).fits hv) _ _
  | .lambda decl, s, hx, hs => by
      simp only [Engine.evalExpr]
      exact .bind (makeFunction decl none (throughout_single.mp hx.parts) hs) fun _ _ ht _ =>
        .pure ht.tame trivial
termination_by structural x => x

theorem evalAll : ∀ (xs : List Expr) {s : State}, P.AllowsAll xs → s.Ready P b →
    Halts P (fun e => evalAll e xs) s AllFit
  | [], s, _, hs => by
      simp only [Classlet.evalAll]
      exact .pure hs.tame .nil
  | x :: more, s, hxs, hs => by
      obtain ⟨hx, hmore⟩ := throughout_cons.mp hxs
      simp only [Classlet.evalAll]
      refine .bind (evalExpr x hx hs) fun _ _ ht hv => ?_
      exact .bind (evalAll more hmore (ht.ready hs)) fun _ _ hu hvs =>
        .pure hu.tame (.cons (hu.fits hv) hvs)
termination_by structural xs => xs

theorem evalElements : ∀ (xs : List Expr) {s : State}, P.AllowsAll xs → s.Ready P b →
    Halts P (fun e => evalElements e xs) s AllFit
  | [], s, _, hs => by
      simp only [Classlet.evalElements]
      exact .pure hs.tame .nil
  | x :: more, s, hxs, hs => by
      obtain ⟨hx, hmore⟩ := throughout_cons.mp hxs
      simp only [Classlet.evalElements]
      refine .bind (evalExpr x hx hs) fun _ _ ht hv => ?_
      refine .bind (.copied ht.tame hv) fun _ _ hu hw => ?_
      exact .bind (evalElements more hmore (hu.ready (ht.ready hs))) fun _ _ hz hvs =>
        .pure hz.tame (.cons (hz.fits hw.1) hvs)
termination_by structural xs => xs

theorem evalKeywords : ∀ (ks : List KeywordArg) (seen : KeywordValues) {s : State},
    Throughout P.Allows (ks.map fun k => .expr k.value) → s.Ready P b →
      KeywordsFit seen s.memory → Halts P (fun e => evalKeywords e seen ks) s KeywordsFit
  | [], seen, s, _, hs, hseen => by
      simp only [Classlet.evalKeywords]
      exact .pure hs.tame hseen
  | .mk name x :: more, seen, s, hks, hs, hseen => by
      obtain ⟨hx, hmore⟩ := throughout_cons.mp hks
      simp only [Classlet.evalKeywords]
      refine .ite (fun _ => .fail hs.tame _) fun _ => ?_
      refine .bind (evalExpr x hx hs) fun _ _ ht hv => ?_
      exact evalKeywords more _ hmore (ht.ready hs) (List.forall_mem_append.mpr
        ⟨ht.keywordsFit hseen, List.forall_mem_singleton.mpr hv⟩)
termination_by structural ks => ks

theorem evalBound : ∀ (bound : Option Expr) {s : State}, P.AllowsAll bound.toList →
    s.Ready P b → Halts P (fun e => evalBound e bound) s Value.FitsIn
  | none, s, _, hs => by
      simp only [Classlet.evalBound]
      exact .pure hs.tame trivial
  | some x, s, hx, hs => by
      simp only [Classlet.evalBound]
      exact evalExpr x (throughout_single.mp hx) hs
termination_by structural bound => bound

theorem resolveTypes (owner : Option String) : ∀ (xs : List Expr) {s : State}, P.AllowsAll xs →
    s.Ready P b → Halts P (fun e => resolveTypes e owner xs) s Anything
  | [], s, _, hs => by
      simp only [Classlet.resolveTypes]
      exact .pure hs.tame trivial
  | x :: more, s, hxs, hs => by
      obtain ⟨hx, hmore⟩ := throughout_cons.mp hxs
      simp only [Classlet.resolveTypes]
      have hrest : ∀ (spec : TypeSpec) t, s.Reaches P t → True → Halts P (fun e => do
          let ts ← Classlet.resolveTypes e owner more
          Pure.pure (spec :: ts)) t Anything := fun _ _ ht _ =>
        .bind (resolveTypes owner more hmore (ht.ready hs)) fun _ _ hu _ => .pure hu.tame trivial
      cases ownerType? owner x with
      | some spec => exact .bind (.pure (Q := Anything) hs.tame trivial) hrest
      | none =>
          refine .bind (evalExpr x hx hs) fun v t ht _ => .bind (typeOfValue ht.tame v) ?_
          exact fun spec u hu _ => hrest spec u (ht.trans hu) trivial
termination_by structural xs => xs

theorem resolveOptional (owner : Option String) : ∀ (x : Option Expr) {s : State},
    P.AllowsAll x.toList → s.Ready P b → Halts P (fun e => resolveOptional e owner x) s Anything
  | none, s, _, hs => by
      simp only [Classlet.resolveOptional]
      exact .pure hs.tame trivial
  | some x, s, hx, hs => by
      simp only [Classlet.resolveOptional]
      cases ownerType? owner x with
      | some spec => exact .pure hs.tame trivial
      | none =>
          exact .bind (evalExpr x (throughout_single.mp hx) hs) fun v _ ht _ =>
            typeOfValue ht.tame v
termination_by structural x => x

theorem resolveParams (owner : Option String) : ∀ (ps : List Param) {s : State},
    P.AllowsAll (ps.filterMap Param.typeExpr) → s.Ready P b →
      Halts P (fun e => resolveParams e owner ps) s Anything
  | [], s, _, hs => by
      simp only [Classlet.resolveParams]
      exact .pure hs.tame trivial
  | .mk name typeExpr variadic :: more, s, hps, hs => by
      obtain ⟨hx, hmore⟩ : P.AllowsAll typeExpr.toList ∧
          P.AllowsAll (more.filterMap Param.typeExpr) := by
        cases typeExpr with
        | none => exact ⟨throughout_nil, hps⟩
        | some x => exact (throughout_cons.mp hps).imp_left throughout_single.mpr
      simp only [Classlet.resolveParams]
      refine .bind (resolveOptional owner typeExpr hx hs) fun _ _ ht _ => ?_
      exact .bind (resolveParams owner more hmore (ht.ready hs)) fun _ _ hu _ =>
        .pure hu.tame trivial
termination_by structural ps => ps

theorem makeFunction : ∀ (decl : FunctionDecl) (owner : Option String) {s : State},
    (Fragment.function decl).Everywhere P.Allows → s.Ready P b →
      Halts P (fun e => e.makeFunction decl owner) s Anything
  | .mk name params returns body line, owner, s, hdecl, hs => by
      obtain ⟨htypes, -⟩ := throughout_append.mp hdecl.parts
      rw [List.map_append] at htypes
      obtain ⟨hparams, hreturns⟩ := throughout_append.mp htypes
      simp only [Engine.makeFunction]
      refine .ofExcept_bind hs.tame fun _ _ => ?_
      refine .bind (resolveParams owner params hparams hs) fun _ _ ht _ => ?_
      refine .bind (resolveTypes owner returns hreturns (ht.ready hs)) fun _ _ hu _ => ?_
      exact captureFunction hu.tame hdecl _ _
termination_by structural decl => decl

end

end expressions

end Halts

end Classlet
