import Classlet.Proofs.Termination.Expressions

/-! # Statements end

The induction goes on over statements.  The only loops are counted (`Halts.countedLoop`).  A place
that is changed is put back into its container if it is an instance, which leaves the container
with older objects only.  Attributes of classes are older than their class, since the class comes
after its members have been evaluated (`Halts.makeClass`). -/

namespace Classlet

open Eval Fragment
open Grammar (Surroundings)

variable {P : Program} {s t : State} {b : Nat}

/-- Imports that land end at a level of at most `b`. -/
def Program.ImportsHalt (P : Program) (b : Nat) : Prop :=
  ∀ target, P.Lands target → ∀ s : State, s.Ready P b →
    Halts P (fun e => e.importModule target s.activation.module) s Anything

/-- What a class body has defined can be the attributes of a class. -/
structure ClassBody.FitsIn (body : ClassBody) (m : Memory) : Prop where
  attributes : BoundWithin m.lists.size m.classes.size body.attributes
  operators : OperatorsDefined body.attributes

theorem IsName.ne_operatorKey {name : String} (h : IsName name) (symbol : String) :
    name ≠ operatorKey symbol := by
  rintro rfl
  have hblank : ' ' ∈ (operatorKey symbol).toList := by
    rw [operatorKey, String.toList_append]
    exact List.mem_append_left _ (by decide)
  unfold IsName at h
  generalize (operatorKey symbol).toList = cs at h hblank
  cases h with
  | identifier hc hword hname =>
      rcases List.mem_cons.mp hblank with rfl | hm
      · exact absurd hc (by decide)
      · exact absurd (List.all_eq_true.mp hword ' ' hm) (by decide)

namespace ClassBody.FitsIn

variable {body : ClassBody} {m : Memory}

theorem empty : ({} : ClassBody).FitsIn m where
  attributes := fun _ hp => by cases hp
  operators := fun _ hp => by cases hp

theorem mono (h : body.FitsIn s.memory) (ht : s.Reaches P t) : body.FitsIn t.memory where
  attributes := h.attributes.mono ht.lists ht.keeps.classes_size_le
  operators := h.operators

theorem addFunction (h : body.FitsIn m) (name : String) (f : FunctionRef) :
    (body.addFunction name f).FitsIn m where
  attributes := h.attributes.insert trivial
  operators p hp symbol hsymbol := by
    rcases Bindings.mem_insert hp with rfl | hp
    · exact ⟨f, rfl⟩
    · exact h.operators p hp symbol hsymbol

theorem addAttribute (h : body.FitsIn m) {name : String} (hname : IsName name) {v : Value}
    (hv : v.FitsIn m) : (body.addAttribute name v).FitsIn m where
  attributes := h.attributes.insert hv
  operators p hp symbol hsymbol := by
    rcases Bindings.mem_insert hp with rfl | hp
    · exact absurd hsymbol (hname.ne_operatorKey symbol)
    · exact h.operators p hp symbol hsymbol

end ClassBody.FitsIn

namespace Halts

/-! ### Places -/

section code
variable (hbelow : ∀ k < b, P.CodeHalts k)
include hbelow

/-- A place is changed, if the change of its value ends. -/
theorem updatePlace (place : Expr) {f : Value → Engine → Eval Unit} {s : State}
    (hplace : (Fragment.expr place).Everywhere P.Allows) (hs : s.Ready P b)
    (hf : ∀ v t, s.Reaches P t → v.Fits t → Halts P (f v) t Anything) :
    Halts P (fun e => updatePlace e place fun v => f v e) s Anything := by
  by_cases hindex : ∃ object index, place = .index object index
  · obtain ⟨object, index, rfl⟩ := hindex
    obtain ⟨hobject, hindex⟩ := throughout_pair.mp hplace.parts
    have hm := P.methodsHalt hbelow
    simp only [Classlet.updatePlace]
    refine updatePlace object (f := fun parent e => do
      let i ← e.evalExpr index
      let container ← Classlet.indexOperation e parent i
      f container e
      if container.isStruct then Classlet.setIndexOperation e parent i container) hobject hs
        fun parent t ht hparent => ?_
    have ht' := ht.ready hs
    refine .bind (evalExpr hbelow index hindex ht') fun i u hu hi => ?_
    have hu' := hu.ready ht'
    refine .bind (indexOperation hm hu' (hu.fits hparent) hi) fun container v hv hcontainer => ?_
    refine .bind (hf container v (ht.trans (hu.trans hv)) hcontainer) fun _ w hw _ => ?_
    have hw' := hw.ready (hv.ready hu')
    -- only an instance is put back
    cases container
    case «instance» j =>
      refine .ite (fun _ => ?_) fun _ => .pure hw'.tame trivial
      exact setIndexOperation hm hw' ((hu.trans (hv.trans hw)).fits hparent)
        ((hv.trans hw).fits hi) (hw.fits hcontainer)
    all_goals exact .pure hw'.tame trivial
  · refine Halts.congr (Y := fun e => e.evalExpr place >>= fun v => f v e) ?_ fun m => ?_
    · exact .bind (evalExpr hbelow place hplace hs) hf
    · rw [Classlet.updatePlace]
      exact fun object index he => hindex ⟨object, index, he⟩
termination_by sizeOf place

/-! ### Assignments -/

omit hbelow in
theorem unpacked (hs : s.Tame P) (need : Nat) {vs : List Value} (hvs : AllFit vs s.memory) :
    Halts P (fun _ => do
      Eval.ofExcept (checkUnpack need vs.length)
      Pure.pure vs) s AllFit :=
  .ofExcept_bind hs fun _ _ => .pure hs hvs

theorem spread (hs : s.Ready P b) (need : Nat) {vs : List Value} (hvs : AllFit vs s.memory) :
    Halts P (fun e => spread e need vs) s AllFit := by
  unfold Classlet.spread
  rcases vs with _ | ⟨v, _ | ⟨w, more⟩⟩ <;> rcases need with _ | _ | need
  case cons.nil.succ.zero => exact .pure hs.tame hvs
  case nil.succ.zero | cons.cons.succ.zero => exact .pure hs.tame (.cons hvs.tuple .nil)
  case cons.nil.zero | cons.nil.succ.succ =>
    exact .bind (elementsOf (P.methodsHalt hbelow) hs (hvs v List.mem_cons_self)) fun _ _ ht hws =>
      unpacked ht.tame _ hws
  all_goals exact unpacked hs.tame _ hvs

/-- A target other than an index gets its value. -/
theorem assignTo (hs : s.Ready P b) {target : Expr} (htarget : target.isIndex = false)
    (hallowed : (Fragment.expr target).Everywhere P.Allows) {v : Value} (hv : v.Fits s) :
    Halts P (fun e => assignTo e target v) s Anything := by
  cases target
  case var name => exact .assignHere hs.tame name hv
  case attr object name =>
    exact updatePlace hbelow object (f := fun o _ => Classlet.setAttribute o name v)
      (throughout_single.mp hallowed.parts) hs fun o t ht _ =>
        setAttribute ht.tame o name (ht.fits hv)
  case index => cases htarget
  all_goals exact .fail hs.tame _

theorem assignAll : ∀ {targets : List Expr} {vs : List Value} {s : State}, s.Ready P b →
    (∀ x ∈ targets, x.isIndex = false) → P.AllowsAll targets → AllFit vs s.memory →
      Halts P (fun e => assignAll e targets vs) s Anything
  | [], _, _, hs, _, _, _ => .pure hs.tame trivial
  | _ :: _, [], _, hs, _, _, _ => .pure hs.tame trivial
  | target :: targets, v :: vs, s, hs, hindex, htargets, hvs => by
      obtain ⟨htarget, hmore⟩ := throughout_cons.mp htargets
      have hfirst := assignTo hbelow hs (hindex target List.mem_cons_self) htarget
        (hvs v List.mem_cons_self)
      refine .bind hfirst fun _ t ht _ => ?_
      exact assignAll (ht.ready hs) (fun x hx => hindex x (List.mem_cons_of_mem _ hx)) hmore
        (ht.allFit fun w hw => hvs w (List.mem_cons_of_mem _ hw))

/-- **An assignment ends** that stores nothing under an index. -/
theorem assignment (hs : s.Ready P b) {targets values : List Expr}
    (hindex : ∀ x ∈ targets, x.isIndex = false) (htargets : P.AllowsAll targets)
    (hvalues : P.AllowsAll values) :
    Halts P (fun e => assignment e targets values) s Anything := by
  refine .bind (evalAll hbelow values hvalues hs) fun vs t ht hvs => ?_
  refine .bind (spread hbelow (ht.ready hs) _ hvs) fun ws u hu hws => ?_
  exact assignAll hbelow (hu.ready (ht.ready hs)) hindex htargets hws

/-! ### Classes -/

omit hbelow in
theorem operatorName (hs : s.Tame P) (className : String) (f : FunctionRef) :
    Halts P (fun _ => defineMember.operatorName className f) s Anything := by
  unfold Classlet.defineMember.operatorName
  refine .readMemory_bind (f := fun m => (m.function? f).map (operatorAttribute m className)) ?_
  cases (s.memory.function? f).map (operatorAttribute s.memory className) with
  | some answer => exact .ofExcept hs fun _ _ => trivial
  | none => exact .pure hs trivial

theorem defineMember (hs : s.Ready P b) (className : String) {body : ClassBody}
    (hbody : body.FitsIn s.memory) {member : ClassMember}
    (hmember : Throughout P.Allows member.parts)
    (hname : ∀ name value, member = .attr name value → IsName name) :
    Halts P (fun e => defineMember e className body member) s ClassBody.FitsIn := by
  unfold Classlet.defineMember
  cases member with
  | method decl =>
      exact .bind (makeFunction hbelow decl _ (throughout_single.mp hmember) hs) fun f _ ht _ =>
        .pure ht.tame ((hbody.mono ht).addFunction _ f)
  | operator decl =>
      refine .bind (makeFunction hbelow decl _ (throughout_single.mp hmember) hs) fun f _ ht _ => ?_
      exact .bind (operatorName ht.tame className f) fun key _ hu _ =>
        .pure hu.tame ((hbody.mono (ht.trans hu)).addFunction key f)
  | attr name value =>
      exact .bind (evalExpr hbelow value (throughout_single.mp hmember) hs) fun _ _ ht hv =>
        .pure ht.tame ((hbody.mono ht).addAttribute (hname name value rfl) hv)

theorem defineMembers (className : String) : ∀ {members : List ClassMember} {body : ClassBody}
    {s : State}, s.Ready P b → body.FitsIn s.memory →
      Throughout P.Allows (members.flatMap ClassMember.parts) →
        (∀ name value, ClassMember.attr name value ∈ members → IsName name) →
          Halts P (fun e => defineMembers e className body members) s ClassBody.FitsIn
  | [], _, _, hs, hbody, _, _ => .pure hs.tame hbody
  | member :: more, body, s, hs, hbody, hmembers, hnames => by
      rw [List.flatMap_cons] at hmembers
      obtain ⟨hmember, hmore⟩ := throughout_append.mp hmembers
      refine .bind (defineMember hbelow hs className hbody hmember fun name value he =>
        hnames name value (he ▸ List.mem_cons_self)) fun _ _ ht hnext => ?_
      exact defineMembers className (ht.ready hs) hnext hmore fun name value hm =>
        hnames name value (List.mem_cons_of_mem _ hm)

theorem evalBase (hs : s.Ready P b) (className : String) {base : Option Expr}
    (hbase : P.AllowsAll base.toList) : Halts P (fun e => evalBase e className base) s
      fun base m => ∀ c, base = some c → c.index < m.classes.size := by
  cases base with
  | none => exact .pure hs.tame fun _ h => by cases h
  | some x =>
      refine .bind (evalExpr hbelow x (throughout_single.mp hbase) hs) fun v t ht hv => ?_
      cases v
      case ofClass c =>
        refine .pure ht.tame fun d hd => ?_
        cases hd
        exact hv
      all_goals exact .failWithType ht.tame _ _

theorem makeClass (hs : s.Ready P b) (name : String) {members : List ClassMember}
    (hmembers : Throughout P.Allows (members.flatMap ClassMember.parts))
    (hnames : ∀ name value, ClassMember.attr name value ∈ members → IsName name)
    (isStruct : Bool) {base : Option ClassRef}
    (hbase : ∀ c, base = some c → c.index < s.memory.classes.size) :
    Halts P (fun e => Classlet.defineMembers e name {} members >>= fun body =>
      makeClass name body isStruct base) s fun c m => c.index < m.classes.size := by
  refine changing hs.tame (.refl hs.tame) (defineMembers hbelow name hs .empty hmembers hnames)
    (fun m => ⟨[], ?_⟩) fun body t ht hbody => ?_
  · have he := rules.engine P.settings P.texts.loader m
    exact isolated_makeClass he name members isStruct base s hs.tame.sound
  · unfold Classlet.makeClass
    cases hnew : t.memory.newClass name body.attributes isStruct base with
    | error c => exact .inl ⟨c, rfl⟩
    | ok made =>
        obtain ⟨c, memory⟩ := made
        obtain ⟨htame, hc, hlists, hclasses⟩ := ht.tame.memory.newClass hbody.attributes
          hbody.operators (fun d hd => (hbase d hd).trans_le ht.keeps.classes_size_le) hnew
        obtain ⟨hl, hk⟩ := Memory.objects_foldl_setOwner c body.functions memory
        refine .inr ⟨c, _, rfl, htame.foldl_setOwner c body.functions, ?_, ?_, ?_⟩
        · rw [hl, hlists]
        · rw [hk]
          exact hclasses
        · rw [hk]
          exact hc

theorem defineClass (hs : s.Ready P b) (name : String) {base : Option Expr}
    {members : List ClassMember} (hbase : P.AllowsAll base.toList)
    (hmembers : Throughout P.Allows (members.flatMap ClassMember.parts))
    (hnames : ∀ name value, ClassMember.attr name value ∈ members → IsName name)
    (isStruct : Bool) :
    Halts P (fun e => defineClass e name base members isStruct) s Anything := by
  refine .bind (evalBase hbelow hs name hbase) fun base t ht hbase => ?_
  simp only [Eval.bind_assoc]
  refine .bind (makeClass hbelow (ht.ready hs) name hmembers hnames isStruct hbase)
    fun c u hu hc => ?_
  exact .assignHere hu.tame name (v := .ofClass c) hc

/-! ### Errors -/

theorem catchClass (hs : s.Ready P b) {x : Expr} (hx : (Fragment.expr x).Everywhere P.Allows) :
    Halts P (fun e => catchClass e x) s Anything := by
  refine .bind (evalExpr hbelow x hx hs) fun v t ht _ => ?_
  cases v
  case ofClass c =>
    exact .readMemory_bind (.ite (fun _ => .pure ht.tame trivial) fun _ =>
      .readMemory_bind (.fail ht.tame _))
  all_goals exact .failWithType ht.tame _ _

theorem catchClasses (w : Surroundings) : ∀ {clauses : List CatchClause} {s : State},
    s.Ready P b → Throughout P.Allows (clauses.flatMap (CatchClause.parts w)) →
      Halts P (fun e => catchClasses e clauses) s Anything
  | [], _, hs, _ => .pure hs.tame trivial
  | .mk name errorType body line :: more, s, hs, hclauses => by
      rw [List.flatMap_cons] at hclauses
      obtain ⟨hclause, hmore⟩ := throughout_append.mp hclauses
      refine .bind (catchClass hbelow hs (throughout_cons.mp hclause).1) fun _ t ht _ => ?_
      exact .bind (catchClasses w (ht.ready hs) hmore) fun _ _ hu _ => .pure hu.tame trivial

omit hbelow in
theorem exceptionOf (hs : s.Tame P) {raised : Raised} (hraised : raised.FitsIn s.memory) :
    Halts P (fun _ => exceptionOf raised) s Value.FitsIn := by
  cases raised with
  | thrown i => exact .pure hs hraised
  | cause c =>
      refine .bind (.newInstance hs c.kind.classRef fun p hp => ?_) fun i t ht hi =>
        .pure ht.tame ?_
      · rw [List.mem_singleton.mp hp]
        trivial
      · show i.ofClass.index < _
        rw [hi]
        exact ht.tame.memory.kind_lt c.kind

omit hbelow in
theorem throwValue (hs : s.Tame P) {v : Value} (hv : v.Fits s) :
    Halts P (fun _ => throwValue v) s Completion.FitsIn := by
  cases v
  case «instance» i =>
    refine .congr (Y := fun _ => if s.memory.isErrorClass i.ofClass then
      Eval.raise (.thrown i) else Eval.fail .notThrowable) ?_ fun m => ?_
    · exact .ite (fun _ => .raise hs hv) fun _ => .fail hs _
    · simp only [Classlet.throwValue]
      split <;> rfl
  all_goals exact .fail hs _

/-! ### Simple statements -/

omit hbelow in
theorem completing {x : Engine → Eval Unit} (hx : Halts P x s Anything) :
    Halts P (fun e => completing (x e)) s Completion.FitsIn :=
  .bind hx fun _ _ ht _ => .pure ht.tame trivial

theorem rangeBound (hs : s.Ready P b) {x : Expr} (hx : (Fragment.expr x).Everywhere P.Allows) :
    Halts P (fun e => rangeBound e x) s Anything := by
  refine .bind (evalExpr hbelow x hx hs) fun v t ht _ => ?_
  cases v
  case int => exact .pure ht.tame trivial
  all_goals exact .failWithType ht.tame _ _

theorem condition (hs : s.Ready P b) {x : Expr} (hx : (Fragment.expr x).Everywhere P.Allows) :
    Halts P (fun e => condition e x) s Anything :=
  .bind (evalExpr hbelow x hx hs) fun _ _ ht hv => truthy (P.methodsHalt hbelow) (ht.ready hs) hv

omit hbelow in
theorem fits_resultOf {vs : List Value} {m : Memory} (hvs : AllFit vs m) :
    (resultOf vs).FitsIn m := by
  rcases vs with _ | ⟨v, _ | ⟨w, more⟩⟩
  · trivial
  · exact hvs v List.mem_cons_self
  · exact hvs.tuple

theorem defineFunction (hs : s.Ready P b) {decl : FunctionDecl}
    (hdecl : (Fragment.function decl).Everywhere P.Allows) :
    Halts P (fun e => defineFunction e decl) s Anything :=
  .bind (makeFunction hbelow decl none hdecl hs) fun _ _ ht _ =>
    .assignHere ht.tame decl.name trivial

omit hbelow in
theorem importAs (himports : P.ImportsHalt b) (hs : s.Ready P b) {target : ImportPath}
    (htarget : P.Lands target) (newName : Option String) :
    Halts P (fun e => importAs e target newName) s Anything := by
  refine .congr (Y := fun e => e.importModule target s.activation.module >>= fun r =>
    Eval.readMemory (fun m => newName.getD (m.moduleInfo r).name) >>= fun name =>
      Eval.context >>= fun c => Eval.assign c name (.module r)) ?_ fun _ => rfl
  refine .bind (himports target htarget s hs) fun r t ht _ => ?_
  exact .readMemory_bind (.assignHere ht.tame _ trivial)

/-! ### Scopes and loops -/

omit hbelow in
theorem inScope (hs : s.Ready P b) {body : List Statement}
    (hbody : ∀ t : State, t.Ready P b →
      Halts P (fun e => e.execStatements body) t Completion.FitsIn) :
    Halts P (fun e => Eval.inNewScope (e.execStatements body)) s Completion.FitsIn :=
  .inNewScope hs.tame (P.confined_execStatements body) (hbody _ hs.pushScope)

omit hbelow in
theorem withVariable (hs : s.Ready P b) (name : String) {v : Value} (hv : v.Fits s)
    {body : List Statement}
    (hbody : ∀ t : State, t.Ready P b →
      Halts P (fun e => e.execStatements body) t Completion.FitsIn) :
    Halts P (fun e => withVariable name v (e.execStatements body)) s Completion.FitsIn := by
  have hdefine : Confined Activation.context (Eval.context >>= fun c => Eval.define c name v) :=
    fun s hs hopen => .define s.activation.context name v hs hopen.1
  have hpushed := hs.pushScope
  refine .inNewScope (X := fun e => (Eval.context >>= fun c => Eval.define c name v) >>= fun _ =>
    e.execStatements body) hs.tame
    (fun m => hdefine.bind fun _ => P.confined_execStatements body m) ?_
  refine .bind (.congr (.define hpushed.tame hpushed.tame.sound.here.1 name hv) fun _ => rfl)
    fun _ t ht _ => hbody t (ht.ready hpushed)

omit hbelow in
/-- **A counted loop ends**, if all its passes do. -/
theorem countedLoop {body : Int → Engine → Eval Completion}
    (hbody : ∀ i (t : State), t.Ready P b → Halts P (body i) t Completion.FitsIn) :
    ∀ (count : Nat) (i : Int) {s : State}, s.Ready P b →
      Halts P (fun e => countedLoop (fun i => body i e) count i) s Completion.FitsIn
  | 0, _, _, hs => .pure hs.tame trivial
  | count + 1, i, s, hs => by
      simp only [countedLoop_succ]
      refine .bind (hbody i s hs) fun completion t ht hcompletion => ?_
      cases completion with
      | normal => exact countedLoop hbody count (i + 1) (ht.ready hs)
      | broken => exact .pure ht.tame trivial
      | returned v => exact .pure ht.tame hcompletion

/-! ### All statements -/

variable (himports : P.ImportsHalt b)
include himports

set_option linter.unusedSectionVars false

mutual

theorem execStatement (w : Surroundings) : ∀ (code : Statement) {s : State},
    (Fragment.statement w code).Everywhere P.Allows → s.Ready P b →
      Halts P (fun e => e.execStatement code) s Completion.FitsIn
  | .mk line kind, s, hcode, hs => by
      simp only [Engine.execStatement]
      exact recording _ (execKind w line kind hcode.here hcode.parts hs)
termination_by structural code => code

theorem execStatements (w : Surroundings) : ∀ (body : List Statement) {s : State},
    Throughout P.Allows (ofBody w body) → s.Ready P b →
      Halts P (fun e => e.execStatements body) s Completion.FitsIn
  | [], s, _, hs => by
      simp only [Engine.execStatements]
      exact .pure hs.tame trivial
  | code :: more, s, hbody, hs => by
      obtain ⟨hcode, hmore⟩ := throughout_cons.mp hbody
      simp only [execStatements_cons]
      refine .bind (execStatement w code hcode hs) fun completion t ht hcompletion => ?_
      cases completion with
      | normal => exact execStatements w more hmore (ht.ready hs)
      | broken => exact .pure ht.tame trivial
      | returned v => exact .pure ht.tame hcompletion
termination_by structural body => body

theorem execKind (w : Surroundings) (line : UInt32) : ∀ (kind : StatementKind) {s : State},
    P.Allows (.statement w (.mk line kind)) → Throughout P.Allows (kind.parts w) →
      s.Ready P b → Halts P (fun e => execKind e kind) s Completion.FitsIn
  | .expression x, s, _, hparts, hs => by
      simp only [Classlet.execKind]
      exact .bind (evalExpr hbelow x (throughout_single.mp hparts) hs) fun _ _ ht _ =>
        .pure ht.tame trivial
  | .assign targets values, s, hkind, hparts, hs => by
      rw [StatementKind.parts, List.map_append] at hparts
      obtain ⟨htargets, hvalues⟩ := throughout_append.mp hparts
      simp only [Classlet.execKind]
      exact completing (assignment hbelow hs hkind.calm htargets hvalues)
  | .block body [], s, _, hparts, hs => by
      obtain ⟨hbody, -⟩ := throughout_append.mp hparts
      simp only [Classlet.execKind]
      exact inScope hs fun t ht => execStatements w body hbody ht
  | .block body (clause :: clauses), s, _, hparts, hs => by
      obtain ⟨hbody, hclauses⟩ := throughout_append.mp hparts
      simp only [Classlet.execKind]
      refine .bind (catchClasses hbelow w hs hclauses) fun classes t ht _ => ?_
      refine .handling (inScope (ht.ready hs) fun u hu => execStatements w body hbody hu)
        fun error u hu herror => ?_
      have hready := hu.ready (ht.ready hs)
      exact execHandlers w (clause :: clauses) classes error hclauses hready herror
  | .ifElse branches otherwise, s, _, hparts, hs => by
      obtain ⟨hbranches, hotherwise⟩ := throughout_append.mp hparts
      simp only [Classlet.execKind]
      exact execBranches w branches hbranches hs fun t ht =>
        execOtherwise w otherwise hotherwise ht
  | .forRange name start stop body, s, _, hparts, hs => by
      obtain ⟨hstart, hmore⟩ := throughout_cons.mp hparts
      obtain ⟨hstop, hbody⟩ := throughout_cons.mp hmore
      simp only [Classlet.execKind]
      refine .bind (rangeBound hbelow hs hstart) fun i t ht _ => ?_
      refine .bind (rangeBound hbelow (ht.ready hs) hstop) fun j u hu _ => ?_
      refine countedLoop (fun k v hv => ?_) _ i (hu.ready (ht.ready hs))
      exact withVariable hv name (v := .int (Int64.ofInt k)) trivial fun z hz =>
        execStatements w.looping body hbody hz
  | .whileDo test body, s, hkind, _, hs => hkind.calm.elim
  | .loop body, s, hkind, _, hs => hkind.calm.elim
  | .breakLoop, s, _, _, hs => by
      simp only [Classlet.execKind]
      exact .pure hs.tame trivial
  | .returnValues values, s, _, hparts, hs => by
      simp only [Classlet.execKind]
      exact .bind (evalAll hbelow values hparts hs) fun _ _ ht hvs =>
        .pure ht.tame (fits_resultOf hvs)
  | .throwValue value, s, _, hparts, hs => by
      simp only [Classlet.execKind]
      exact .bind (evalExpr hbelow value (throughout_single.mp hparts) hs) fun _ _ ht hv =>
        throwValue ht.tame hv
  | .function decl, s, _, hparts, hs => by
      simp only [Classlet.execKind]
      exact completing (defineFunction hbelow hs (throughout_single.mp hparts))
  | .classDecl name base members isStruct, s, hkind, hparts, hs => by
      obtain ⟨hbase, hmembers⟩ := throughout_append.mp hparts
      simp only [Classlet.execKind]
      exact completing (defineClass hbelow hs name hbase hmembers hkind.attributes isStruct)
  | .importModule target newName, s, hkind, _, hs => by
      simp only [Classlet.execKind]
      exact completing (importAs himports hs hkind.imports newName)
termination_by structural kind => kind

theorem execBranches (w : Surroundings) : ∀ (branches : List Branch)
    {otherwise : Engine → Eval Completion} {s : State},
    Throughout P.Allows (branches.flatMap (Branch.parts w)) → s.Ready P b →
      (∀ t : State, t.Ready P b → Halts P otherwise t Completion.FitsIn) →
        Halts P (fun e => execBranches e branches (otherwise e)) s Completion.FitsIn
  | [], _, s, _, hs, hotherwise => by
      simp only [Classlet.execBranches]
      exact hotherwise s hs
  | .mk test body :: more, _, s, hbranches, hs, hotherwise => by
      rw [List.flatMap_cons] at hbranches
      obtain ⟨hbranch, hmore⟩ := throughout_append.mp hbranches
      obtain ⟨htest, hbody⟩ := throughout_cons.mp hbranch
      simp only [Classlet.execBranches]
      refine .bind (condition hbelow hs htest) fun _ t ht _ => ?_
      exact .ite (fun _ => inScope (ht.ready hs) fun u hu => execStatements w body hbody hu)
        fun _ => execBranches w more hmore (ht.ready hs) hotherwise
termination_by structural branches => branches

theorem execOtherwise (w : Surroundings) : ∀ (otherwise : Option (List Statement)) {s : State},
    Throughout P.Allows (ofBody w (otherwise.getD [])) → s.Ready P b →
      Halts P (fun e => execOtherwise e otherwise) s Completion.FitsIn
  | none, s, _, hs => by
      simp only [Classlet.execOtherwise]
      exact .pure hs.tame trivial
  | some body, s, hbody, hs => by
      simp only [Classlet.execOtherwise]
      exact inScope hs fun t ht => execStatements w body hbody ht
termination_by structural otherwise => otherwise

theorem execHandlers (w : Surroundings) : ∀ (clauses : List CatchClause) (classes : List ClassRef)
    (error : RuntimeError) {s : State},
    Throughout P.Allows (clauses.flatMap (CatchClause.parts w)) → s.Ready P b →
      error.raised.FitsIn s.memory →
        Halts P (fun e => execHandlers e clauses classes error) s Completion.FitsIn
  | [], _, error, s, _, hs, herror => by
      simp only [Classlet.execHandlers]
      exact .raise hs.tame herror
  | .mk _ _ _ _ :: _, [], error, s, _, hs, herror => by
      simp only [Classlet.execHandlers]
      exact .raise hs.tame herror
  | .mk name errorType body line :: more, c :: cs, error, s, hclauses, hs, herror => by
      rw [List.flatMap_cons] at hclauses
      obtain ⟨hclause, hmore⟩ := throughout_append.mp hclauses
      obtain ⟨-, hbody⟩ := throughout_cons.mp hclause
      simp only [Classlet.execHandlers]
      refine .readMemory_bind (.ite (fun _ => ?_) fun _ =>
        execHandlers w more cs error hmore hs herror)
      refine .bind (exceptionOf hs.tame herror) fun exception t ht hexception => ?_
      exact withVariable (ht.ready hs) name hexception fun u hu => execStatements w body hbody hu
termination_by structural clauses => clauses

end

end code

end Halts

/-- Code ends at a level, if it ends at all lower ones and imports end. -/
theorem Program.codeHalts (hbelow : ∀ k < b, P.CodeHalts k) (himports : P.ImportsHalt b) :
    P.CodeHalts b :=
  fun w body hbody _ hs => Halts.execStatements hbelow himports w body hbody hs

end Classlet
