import Classlet.Interpreter
import Classlet.Proofs.Evaluator.Closed

/-! # Properties of expressions and statements

A property that is gentle (`Eval.Gentle`) is a property of every expression, and one that is closed
(`Eval.Closed`) of every update of a place as well.  Statements bind names and enter scopes besides,
which not every property of expressions allows.  So there are two properties: `P` for expressions,
calls and imports, and `Q` for statements.  `Eval.Rules` lists what has to be known about them: how
`Q` goes through the steps that only statements take, and that a call or an import has `P` if the
statements that it runs have `Q`.

From that, by induction over the syntax, every expression and every statement has its property
over an engine that has `P`; and by induction over the fuel every engine has `P`
(`Rules.engine`). -/

namespace Classlet

open Eval

/-! ### What follows a statement or a pass -/

/-- What follows a statement: the rest of the body, unless the statement has left it. -/
def Completion.thenRest (rest : Eval Completion) : Completion → Eval Completion
  | normal => rest
  | completion => pure completion

theorem execStatements_cons (e : Engine) (first : Statement) (more : List Statement) :
    e.execStatements (first :: more) =
      e.execStatement first >>= Completion.thenRest (e.execStatements more) := by
  funext s
  rw [Engine.execStatements, bind_apply]
  dsimp only
  rcases e.execStatement first s with ⟨(⟨_ | _ | _⟩ | _ | _), t⟩ <;> rfl

/-- What a loop does after a pass: all that is left of it, unless the pass has left the loop. -/
def Completion.thenLoop (rest : Eval Completion) : Completion → Eval Completion
  | normal => rest
  | broken => pure .normal
  | returned v => pure (.returned v)

theorem countedLoop_succ (body : Int → Eval Completion) (count : Nat) (i : Int) :
    countedLoop body (count + 1) i =
      body i >>= Completion.thenLoop (countedLoop body count (i + 1)) := by
  funext s
  simp only [countedLoop, bind_apply]
  rcases body i s with ⟨(⟨_ | _ | _⟩ | _ | _), t⟩ <;> rfl

theorem guardedLoop_succ (test : Eval Bool) (body : Eval Completion) (passes : Nat) :
    guardedLoop test body (passes + 1) = test >>= fun goOn =>
      if goOn then body >>= Completion.thenLoop (guardedLoop test body passes)
      else pure .normal := by
  funext s
  simp only [guardedLoop, bind_apply]
  rcases test s with ⟨(⟨_ | _⟩ | _ | _), t⟩
  · rfl
  · simp only [if_true, bind_apply]
    rcases body t with ⟨(⟨_ | _ | _⟩ | _ | _), u⟩ <;> rfl
  · rfl
  · rfl

/-! ### The names of parameters -/

/-- Parameters that pass the check have names of their own, which were not seen before. -/
theorem nodup_of_checkParams_eq_ok {function : String} : ∀ {params : List Param}
    {seen : List String}, checkParams function seen params = .ok () →
      (params.map Param.name).Nodup ∧ ∀ p ∈ params, p.name ∉ seen
  | [], _, _ => ⟨List.nodup_nil, fun _ hp => by cases hp⟩
  | p :: more, seen, h => by
      rw [checkParams] at h
      split at h
      · cases h
      · rename_i hseen
        split at h
        · cases h
        · obtain ⟨hnodup, hnew⟩ := nodup_of_checkParams_eq_ok h
          have hp : p.name ∉ more.map Param.name := by
            intro hm
            obtain ⟨q, hq, he⟩ := List.mem_map.mp hm
            exact hnew q hq (by simp [he])
          refine ⟨List.nodup_cons.mpr ⟨hp, hnodup⟩, fun q hq => ?_⟩
          rcases List.mem_cons.mp hq with rfl | hq
          · simpa using hseen
          · exact fun hm => hnew q hq (List.mem_cons_of_mem _ hm)

theorem nodup_of_checkParams {function : String} {params : List Param}
    (h : (ofExcept (checkParams function [] params)).Returns ()) :
    (params.map Param.name).Nodup := by
  obtain ⟨s, s', h⟩ := h
  cases hcheck : checkParams function [] params with
  | ok u => exact (nodup_of_checkParams_eq_ok hcheck).1
  | error c =>
      rw [hcheck] at h
      cases h

/-- Evaluating the class expressions of parameters keeps their names. -/
theorem names_resolveParams {e : Engine} {owner : Option String} : ∀ {params : List Param}
    {specs : List ParamSpec}, (resolveParams e owner params).Returns specs →
      specs.map ParamSpec.name = params.map Param.name
  | [], specs, ⟨s, s', h⟩ => by
      rw [resolveParams] at h
      cases h
      rfl
  | .mk name typeExpr variadic :: more, specs, ⟨s, s', h⟩ => by
      rw [resolveParams] at h
      obtain ⟨t, s₁, -, h⟩ := of_bind_ok h
      obtain ⟨ps, s₂, hps, h⟩ := of_bind_ok h
      cases h
      exact congrArg (name :: ·) (names_resolveParams ⟨s₁, _, hps⟩)

namespace Eval.Gentle

variable {P : ∀ ⦃α : Type⦄, Eval α → Prop} (h : Gentle P) {e : Engine} (he : e.Satisfies P)
include h

/-! ### Attributes -/

theorem getAttribute (object : Value) (name : String) : P (getAttribute object name) := by
  have hbound : ∀ (i : InstanceRef) (method : Callable), P (getAttribute.bound i method) :=
    fun i method => h.bind (h.newMethod _) fun r => h.pure _
  unfold Classlet.getAttribute
  split
  case h_1 i =>
    refine h.bind (h.readMemory _) fun field => ?_
    cases field with
    | some v => exact h.pure v
    | none =>
        refine h.bind (h.classAttribute? i name) fun found => ?_
        split
        · exact hbound i _
        · exact hbound i _
        · exact h.pure _
        · exact h.failWithType _ _
  case h_2 c =>
    refine h.ite (h.readMemory _) (h.bind (h.readMemory _) fun found => ?_)
    cases found with
    | some v => exact h.pure v
    | none => exact h.bind (h.readMemory _) fun _ => h.fail _
  case h_3 r =>
    refine h.bind (h.readMemory _) fun found => ?_
    cases found with
    | some v => exact h.pure v
    | none => exact h.bind (h.readMemory _) fun _ => h.fail _
  case h_4 => exact h.failWithType _ _

/-! ### Expressions -/

theorem typeOfValue (v : Value) : P (typeOfValue v) := by
  unfold Classlet.typeOfValue
  split
  · exact h.pure _
  · exact h.failWithType _ _

theorem lookup (name : String) : P (fun s : State =>
    match s.toStore.lookup s.activation.context name with
    | .ok v => (.ok v, s)
    | .error c => Eval.fail c s : Eval Value) := by
  refine h.of_apply (y := Eval.read (fun s => s.toStore.lookup s.activation.context name) >>=
    Eval.ofExcept) (h.bind (h.read _) fun x => h.ofExcept x) fun s => ?_
  simp only [bind_apply, Eval.read]
  cases s.toStore.lookup s.activation.context name <;> rfl

include he

set_option linter.unusedSectionVars false

mutual

theorem evalExpr : ∀ x : Expr, P (e.evalExpr x)
  | .literal l => by
      rw [Engine.evalExpr]
      exact h.pure l.value
  | .var name => by
      rw [Engine.evalExpr]
      exact h.lookup name
  | .tuple elements => by
      rw [Engine.evalExpr]
      exact h.bind (evalElements elements) fun vs => h.pure _
  | .list elements => by
      rw [Engine.evalExpr]
      exact h.bind (evalElements elements) fun vs => h.newListOf vs
  | .unary op operand => by
      rw [Engine.evalExpr]
      exact h.bind (evalExpr operand) fun v => h.unaryOperation he op v
  | .not operand => by
      rw [Engine.evalExpr]
      exact h.bind (evalExpr operand) fun v => h.bind (h.truthy he v) fun b => h.pure _
  | .binary op left right => by
      rw [Engine.evalExpr]
      exact h.bind (evalExpr left) fun v => h.bind (evalExpr right) fun w =>
        h.binaryOperation he op v w
  | .logical op left right => by
      rw [Engine.evalExpr]
      exact h.bind (evalExpr left) fun v => h.bind (h.truthy he v) fun b =>
        h.ite (h.pure v) (evalExpr right)
  | .call callee arguments keywords => by
      rw [Engine.evalExpr]
      exact h.bind (evalExpr callee) fun f => h.bind (evalAll arguments) fun vs =>
        h.bind (evalKeywords [] keywords) fun ks => he.call f false vs ks
  | .attr object name => by
      rw [Engine.evalExpr]
      exact h.bind (evalExpr object) fun v => h.getAttribute v name
  | .index object index => by
      rw [Engine.evalExpr]
      exact h.bind (evalExpr object) fun v => h.bind (evalExpr index) fun i =>
        h.indexOperation he v i
  | .slice object start stop => by
      rw [Engine.evalExpr]
      exact h.bind (evalExpr object) fun v => h.bind (evalBound start) fun i =>
        h.bind (evalBound stop) fun j => h.sliceOperation v i j
  | .lambda decl => by
      rw [Engine.evalExpr]
      exact h.bind (makeFunction decl none) fun f => h.pure _
termination_by structural x => x

theorem evalAll : ∀ xs : List Expr, P (evalAll e xs)
  | [] => by
      rw [Classlet.evalAll]
      exact h.pure []
  | x :: more => by
      rw [Classlet.evalAll]
      exact h.bind (evalExpr x) fun v => h.bind (evalAll more) fun vs => h.pure (v :: vs)
termination_by structural xs => xs

theorem evalElements : ∀ xs : List Expr, P (evalElements e xs)
  | [] => by
      rw [Classlet.evalElements]
      exact h.pure []
  | x :: more => by
      rw [Classlet.evalElements]
      exact h.bind (evalExpr x) fun v => h.bind (h.copied v) fun w =>
        h.bind (evalElements more) fun vs => h.pure (w :: vs)
termination_by structural xs => xs

theorem evalKeywords (seen : KeywordValues) : ∀ ks : List KeywordArg, P (evalKeywords e seen ks)
  | [] => by
      rw [Classlet.evalKeywords]
      exact h.pure seen
  | .mk name x :: more => by
      rw [Classlet.evalKeywords]
      exact h.ite (h.fail _) (h.bind (evalExpr x) fun v => evalKeywords (seen ++ [(name, v)]) more)
termination_by structural ks => ks

theorem evalBound : ∀ bound : Option Expr, P (evalBound e bound)
  | none => by
      rw [Classlet.evalBound]
      exact h.pure _
  | some x => by
      rw [Classlet.evalBound]
      exact evalExpr x
termination_by structural bound => bound

theorem resolveTypes (owner : Option String) : ∀ xs : List Expr, P (resolveTypes e owner xs)
  | [] => by
      rw [Classlet.resolveTypes]
      exact h.pure []
  | x :: more => by
      rw [Classlet.resolveTypes]
      have hmore : ∀ t, P (do
          let ts ← Classlet.resolveTypes e owner more
          Pure.pure (t :: ts)) :=
        fun t => h.bind (resolveTypes owner more) fun ts => h.pure (t :: ts)
      dsimp only
      split
      · exact h.bind (h.pure _) hmore
      · exact h.bind (evalExpr x) fun v => h.bind (h.typeOfValue v) hmore
termination_by structural xs => xs

theorem resolveOptional (owner : Option String) : ∀ x : Option Expr, P (resolveOptional e owner x)
  | none => by
      rw [Classlet.resolveOptional]
      exact h.pure _
  | some x => by
      rw [Classlet.resolveOptional]
      split
      · exact h.pure _
      · exact h.bind (evalExpr x) fun v => h.typeOfValue v
termination_by structural x => x

theorem resolveParams (owner : Option String) : ∀ ps : List Param, P (resolveParams e owner ps)
  | [] => by
      rw [Classlet.resolveParams]
      exact h.pure []
  | .mk name typeExpr variadic :: more => by
      rw [Classlet.resolveParams]
      exact h.bind (resolveOptional owner typeExpr) fun t => h.bind (resolveParams owner more)
        fun ps => h.pure _
termination_by structural ps => ps

theorem makeFunction : ∀ (decl : FunctionDecl) (owner : Option String),
    P (e.makeFunction decl owner)
  | .mk name params returns body line, owner => by
      rw [Engine.makeFunction]
      refine h.andThen (h.ofExcept _) fun _ hcheck =>
        h.andThen (resolveParams owner params) fun ps hps =>
          h.bind (resolveTypes owner returns) fun rs => h.captureFunction _ rs ?_
      rw [names_resolveParams hps]
      exact nodup_of_checkParams hcheck
termination_by structural decl => decl

end

/-! ### Values -/

theorem spread (need : Nat) (values : List Value) : P (spread e need values) := by
  unfold Classlet.spread
  split
  · exact h.pure _
  · exact h.pure _
  · exact h.bind (h.elementsOf he _) fun vs => h.bind (h.ofExcept _) fun _ => h.pure vs
  · exact h.bind (h.ofExcept _) fun _ => h.pure _

end Eval.Gentle

namespace Eval.Closed

variable {P : ∀ ⦃α : Type⦄, Eval α → Prop} (h : Closed P) {e : Engine} (he : e.Satisfies P)
include h

/-! ### Places and classes -/

theorem setAttribute (object : Value) (name : String) (v : Value) :
    P (setAttribute object name v) := by
  unfold Classlet.setAttribute
  split
  case h_1 i => exact h.bindField i name v
  case h_2 => exact h.bind (h.readMemory _) fun _ => h.fail _
  case h_3 => exact h.bind (h.readMemory _) fun _ => h.fail _
  case h_4 => exact h.failWithType _ _

include he

theorem updatePlace (place : Expr) {update : Value → Eval Unit} (hupdate : ∀ v, P (update v)) :
    P (updatePlace e place update) := by
  fun_induction Classlet.updatePlace e place update with
  | case1 object index update ih =>
      refine ih fun parent => ?_
      refine h.bind (h.evalExpr he index) fun i => h.bind (h.indexOperation he parent i)
        fun container => h.bind (hupdate container) fun _ => ?_
      exact h.ite (h.setIndexOperation he parent i container) (h.pure _)
  | case2 place update hplace => exact h.bind (h.evalExpr he place) hupdate

omit he in
theorem operatorName (className : String) (f : FunctionRef) :
    P (defineMember.operatorName className f) := by
  unfold Classlet.defineMember.operatorName
  refine h.bind (h.readMemory _) fun answer => ?_
  cases answer with
  | some answer => exact h.ofExcept answer
  | none => exact h.pure _

theorem defineMember (className : String) (body : ClassBody) (member : ClassMember) :
    P (defineMember e className body member) := by
  unfold Classlet.defineMember
  split
  · exact h.bind (h.makeFunction he _ _) fun f => h.pure _
  · exact h.bind (h.makeFunction he _ _) fun f => h.bind (h.operatorName className f) fun key =>
      h.pure _
  · exact h.bind (h.evalExpr he _) fun v => h.pure _

theorem defineMembers (className : String) : ∀ (body : ClassBody) (members : List ClassMember),
    P (defineMembers e className body members)
  | body, [] => h.pure body
  | body, member :: more =>
      h.bind (h.defineMember he className body member) fun body => defineMembers className body more

theorem evalBase (className : String) (base : Option Expr) : P (evalBase e className base) := by
  unfold Classlet.evalBase
  split
  · exact h.pure none
  · refine h.bind (h.evalExpr he _) fun v => ?_
    split
    · exact h.pure _
    · exact h.failWithType _ _

/-! ### Parts of statements -/

theorem catchClass (x : Expr) : P (catchClass e x) := by
  unfold Classlet.catchClass
  refine h.bind (h.evalExpr he x) fun v => ?_
  split
  · refine h.bind (h.readMemory _) fun isError => h.ite (h.pure _) ?_
    exact h.bind (h.readMemory _) fun _ => h.fail _
  · exact h.failWithType _ _

theorem catchClasses : ∀ clauses : List CatchClause, P (catchClasses e clauses)
  | [] => h.pure []
  | .mk _ errorType _ _ :: more =>
      h.bind (h.catchClass he errorType) fun c => h.bind (catchClasses more) fun cs =>
        h.pure (c :: cs)

theorem rangeBound (x : Expr) : P (rangeBound e x) := by
  unfold Classlet.rangeBound
  refine h.bind (h.evalExpr he x) fun v => ?_
  split
  · exact h.pure _
  · exact h.failWithType _ _

theorem condition (x : Expr) : P (condition e x) :=
  h.bind (h.evalExpr he x) fun v => h.truthy he v

omit he in
theorem exceptionOf (raised : Raised) : P (exceptionOf raised) := by
  unfold Classlet.exceptionOf
  split
  · exact h.bind (h.newException _ _) fun i => h.pure _
  · exact h.pure _

omit he in
/-- A property of all errors that are raised is a property of throwing. -/
theorem throwValue (hraise : ∀ error, P (Eval.raise error : Eval Completion)) (v : Value) :
    P (throwValue v) := by
  have hnot : P (fun s => Eval.fail .notThrowable s : Eval Completion) := h.fail _
  cases v
  case «instance» i =>
    refine h.of_apply (y := Eval.readMemory (fun m => m.isErrorClass i.ofClass) >>=
      fun isError => if isError then Eval.raise (.thrown i) else Eval.fail .notThrowable)
      (h.bind (h.readMemory _) fun _ => h.ite (hraise _) (h.fail _)) fun s => ?_
    simp only [Classlet.throwValue, bind_apply, Eval.readMemory]
    split <;> rfl
  all_goals exact hnot

end Eval.Closed

/-! ### Statements -/

/-- A handler takes an error by a computation with a property, or raises the error again at once. -/
def Eval.Takes (Q : Eval Completion → Prop) (handler : RuntimeError → Eval Completion) : Prop :=
  ∀ error s, handler error s = (.raised error, s) ∨ ∃ y, Q y ∧ handler error s = y s

theorem Eval.Takes.mono {Q Q' : Eval Completion → Prop} {handler : RuntimeError → Eval Completion}
    (h : Takes Q handler) (hQ : ∀ y, Q y → Q' y) : Takes Q' handler := fun error s =>
  (h error s).imp_right fun ⟨y, hy, he⟩ => ⟨y, hQ y hy, he⟩

/-- A property `P` of expressions, calls and imports, and a property `Q` of statements. -/
structure Eval.Rules (P Q : ∀ ⦃α : Type⦄, Eval α → Prop) : Prop where
  closed : Closed P
  weaken {α : Type} {x : Eval α} : P x → Q x
  andThen {α β : Type} {x : Eval α} {f : α → Eval β} :
    Q x → (∀ a, x.Returns a → Q (f a)) → Q (x >>= f)
  assign (name : String) (v : Value) : Q (context >>= fun c => assign c name v)
  inNewScope {α : Type} {x : Eval α} : Q x → Q (inNewScope x)
  withVariable (name : String) (v : Value) {body : Eval Completion} :
    Q body → Q (withVariable name v body)
  recording (statement : Statement) {x : Eval Completion} : Q x → Q (recording statement x)
  throwValue (v : Value) : Q (throwValue v)
  handling {x : Eval Completion} {handler : RuntimeError → Eval Completion} :
    Q x → Takes (@Q Completion) handler → Q (handling x handler)
  callReference (e : Engine) (r : FunctionRef) (hasReceiver : Bool) (arguments : List Value)
    (keywords : KeywordValues) : (∀ body, Q (e.execStatements body)) →
      P (callReference e r hasReceiver arguments keywords)
  makeClass (e : Engine) (name : String) (members : List ClassMember) (isStruct : Bool)
    (base : Option ClassRef) : e.Satisfies P →
      P (defineMembers e name {} members >>= fun body => makeClass name body isStruct base)
  importModule (e : Engine) (target : ImportPath) : (∀ body, Q (e.execStatements body)) →
    P (read (fun s => s.activation.module) >>= importModule e target)

namespace Eval.Rules

variable {P Q : ∀ ⦃α : Type⦄, Eval α → Prop} (h : Rules P Q) {e : Engine} (he : e.Satisfies P)
include h

theorem bind {α β : Type} {x : Eval α} {f : α → Eval β} (hx : Q x) (hf : ∀ a, Q (f a)) :
    Q (x >>= f) :=
  h.andThen hx fun a _ => hf a

theorem closedQ : Closed Q where
  pure a := h.weaken (h.closed.pure a)
  andThen := h.andThen
  fail c := h.weaken (h.closed.fail c)
  stop why hwhy := h.weaken (h.closed.stop why hwhy)
  read f := h.weaken (h.closed.read f)
  copied v := h.weaken (h.closed.copied v)
  newList vs := h.weaken (h.closed.newList vs)
  newInstance c _ hfields := h.weaken (h.closed.newInstance c hfields)
  newMethod b := h.weaken (h.closed.newMethod b)
  bindField i name v := h.weaken (h.closed.bindField i name v)
  modifyList a l f := h.weaken (h.closed.modifyList a l f)
  print text := h.weaken (h.closed.print text)
  captureFunction decl _ rs hnames := h.weaken (h.closed.captureFunction decl rs hnames)

/-! ### Sequences and loops -/

theorem thenRest {rest : Eval Completion} (hrest : Q rest) :
    ∀ completion : Completion, Q (completion.thenRest rest)
  | .normal => hrest
  | .broken => h.closedQ.pure _
  | .returned _ => h.closedQ.pure _

theorem thenLoop {rest : Eval Completion} (hrest : Q rest) :
    ∀ completion : Completion, Q (completion.thenLoop rest)
  | .normal => hrest
  | .broken => h.closedQ.pure _
  | .returned _ => h.closedQ.pure _

theorem countedLoop {body : Int → Eval Completion} (hbody : ∀ i, Q (body i)) :
    ∀ (count : Nat) (i : Int), Q (countedLoop body count i)
  | 0, _ => h.closedQ.pure _
  | count + 1, i => by
      rw [countedLoop_succ]
      exact h.bind (hbody i) (h.thenLoop (countedLoop hbody count (i + 1)))

theorem guardedLoop {test : Eval Bool} {body : Eval Completion} (htest : Q test) (hbody : Q body) :
    ∀ passes : Nat, Q (guardedLoop test body passes)
  | 0 => h.closedQ.outOfFuel
  | passes + 1 => by
      rw [guardedLoop_succ]
      exact h.bind htest fun goOn =>
        h.closedQ.ite (h.bind hbody (h.thenLoop (guardedLoop htest hbody passes)))
          (h.closedQ.pure _)

include he

/-! ### Simple statements -/

theorem assignTo (target : Expr) (v : Value) : Q (assignTo e target v) := by
  unfold Classlet.assignTo
  split
  case h_1 name => exact h.assign name v
  case h_2 object name =>
    exact h.weaken (h.closed.updatePlace he object fun o => h.closed.setAttribute o name v)
  case h_3 object index =>
    refine h.weaken (h.closed.updatePlace he object fun container => ?_)
    exact h.closed.bind (h.closed.evalExpr he index) fun i =>
      h.closed.setIndexOperation he container i v
  case h_4 => exact h.weaken (h.closed.fail _)
  case h_5 => exact h.weaken (h.closed.fail _)

theorem assignAll : ∀ (targets : List Expr) (vs : List Value), Q (assignAll e targets vs)
  | [], _ => h.closedQ.pure ()
  | _ :: _, [] => h.closedQ.pure ()
  | target :: targets, v :: vs => h.bind (h.assignTo he target v) fun _ => assignAll targets vs

theorem assignment (targets values : List Expr) : Q (assignment e targets values) :=
  h.bind (h.weaken (h.closed.evalAll he values)) fun vs =>
    h.bind (h.weaken (h.closed.spread he _ vs)) fun vs => h.assignAll he targets vs

theorem defineFunction (decl : FunctionDecl) : Q (defineFunction e decl) :=
  h.bind (h.weaken (h.closed.makeFunction he decl none)) fun f => h.assign decl.name (.function f)

theorem defineClass (name : String) (base : Option Expr) (members : List ClassMember)
    (isStruct : Bool) : Q (defineClass e name base members isStruct) := by
  refine h.bind (h.weaken (h.closed.evalBase he name base)) fun base => ?_
  rw [bind_assoc]
  exact h.bind (h.weaken (h.makeClass e name members isStruct base he)) fun c =>
    h.assign name (.ofClass c)

theorem importAs (path : ImportPath) (newName : Option String) :
    Q (importAs e path newName) := by
  unfold Classlet.importAs
  rw [bind_assoc]
  exact h.bind (h.weaken (he.importModule path)) fun r =>
    h.bind (h.weaken (h.closed.readMemory _)) fun name => h.assign name (.module r)

omit he in
theorem completing {x : Eval Unit} (hx : Q x) : Q (completing x) :=
  h.bind hx fun _ => h.closedQ.pure _

/-! ### All statements -/

set_option linter.unusedSectionVars false

mutual

theorem execStatement : ∀ statement : Statement, Q (e.execStatement statement)
  | .mk line kind => by
      rw [Engine.execStatement]
      exact h.recording _ (execKind kind)
termination_by structural statement => statement

theorem execStatements : ∀ statements : List Statement, Q (e.execStatements statements)
  | [] => by
      rw [Engine.execStatements]
      exact h.closedQ.pure _
  | statement :: more => by
      rw [execStatements_cons]
      exact h.bind (execStatement statement) (h.thenRest (execStatements more))
termination_by structural statements => statements

theorem execKind : ∀ kind : StatementKind, Q (execKind e kind)
  | .expression x => by
      rw [Classlet.execKind]
      exact h.bind (h.weaken (h.closed.evalExpr he x)) fun _ => h.closedQ.pure _
  | .assign targets values => by
      rw [Classlet.execKind]
      exact h.completing (h.assignment he targets values)
  | .block body [] => by
      rw [Classlet.execKind]
      exact h.inNewScope (execStatements body)
  | .block body (clause :: clauses) => by
      rw [Classlet.execKind]
      exact h.bind (h.weaken (h.closed.catchClasses he _)) fun classes =>
        h.handling (h.inNewScope (execStatements body)) fun error =>
          execHandlers (clause :: clauses) classes error
  | .ifElse branches otherwise => by
      rw [Classlet.execKind]
      exact execBranches branches (execOtherwise otherwise)
  | .forRange name start stop body => by
      rw [Classlet.execKind]
      exact h.bind (h.weaken (h.closed.rangeBound he start)) fun i =>
        h.bind (h.weaken (h.closed.rangeBound he stop)) fun j =>
          h.countedLoop (fun k => h.withVariable name _ (execStatements body)) _ i
  | .whileDo test body => by
      rw [Classlet.execKind]
      exact h.guardedLoop (h.weaken (h.closed.condition he test))
        (h.inNewScope (execStatements body)) _
  | .loop body => by
      rw [Classlet.execKind]
      exact h.guardedLoop (h.closedQ.pure true) (h.inNewScope (execStatements body)) _
  | .breakLoop => by
      rw [Classlet.execKind]
      exact h.closedQ.pure _
  | .returnValues values => by
      rw [Classlet.execKind]
      exact h.bind (h.weaken (h.closed.evalAll he values)) fun vs => h.closedQ.pure _
  | .throwValue value => by
      rw [Classlet.execKind]
      exact h.bind (h.weaken (h.closed.evalExpr he value)) fun v => h.throwValue v
  | .function decl => by
      rw [Classlet.execKind]
      exact h.completing (h.defineFunction he decl)
  | .classDecl name base members isStruct => by
      rw [Classlet.execKind]
      exact h.completing (h.defineClass he name base members isStruct)
  | .importModule path newName => by
      rw [Classlet.execKind]
      exact h.completing (h.importAs he path newName)
termination_by structural kind => kind

theorem execBranches : ∀ (branches : List Branch) {otherwise : Eval Completion}, Q otherwise →
    Q (execBranches e branches otherwise)
  | [], otherwise, ho => by
      rw [Classlet.execBranches]
      exact ho
  | .mk test body :: more, otherwise, ho => by
      rw [Classlet.execBranches]
      exact h.bind (h.weaken (h.closed.condition he test)) fun holds =>
        h.closedQ.ite (h.inNewScope (execStatements body)) (execBranches more ho)
termination_by structural branches => branches

theorem execOtherwise : ∀ otherwise : Option (List Statement), Q (execOtherwise e otherwise)
  | none => by
      rw [Classlet.execOtherwise]
      exact h.closedQ.pure _
  | some body => by
      rw [Classlet.execOtherwise]
      exact h.inNewScope (execStatements body)
termination_by structural otherwise => otherwise

theorem execHandlers : ∀ (clauses : List CatchClause) (classes : List ClassRef),
    Takes (@Q Completion) (execHandlers e clauses classes)
  | [], classes, error, s => by
      rw [Classlet.execHandlers]
      · exact .inl rfl
      · exact fun name type body line more c cs hc => by cases hc
  | .mk name errorType body line :: more, [], error, s => by
      rw [Classlet.execHandlers]
      · exact .inl rfl
      · exact fun name type body line more c cs _ hc => by cases hc
  | .mk name errorType body line :: more, c :: cs, error, s => by
      rw [Classlet.execHandlers, bind_apply, Eval.readMemory]
      dsimp only
      split
      · refine .inr ⟨_, ?_, rfl⟩
        exact h.bind (h.closedQ.exceptionOf _) fun exception =>
          h.withVariable name exception (execStatements body)
      · exact execHandlers more cs error s
termination_by structural clauses => clauses

end

/-! ### Calls and imports -/

theorem callMethodReference (r : MethodRef) (arguments : List Value) (keywords : KeywordValues) :
    P (callMethodReference e r arguments keywords) := by
  unfold Classlet.callMethodReference
  refine h.closed.bind (h.closed.readMemory _) fun method => ?_
  split
  · exact h.callReference e _ true _ keywords (h.execStatements he)
  · exact h.closed.callBuiltin he _ _ keywords
  · exact h.closed.pure _

theorem makeInstance (c : ClassRef) (init : Option Value) (arguments : List Value)
    (keywords : KeywordValues) : P (makeInstance e c init arguments keywords) := by
  unfold Classlet.makeInstance
  refine h.closed.bind (h.closed.newInstance c fun _ hp => by cases hp) fun i => ?_
  cases init with
  | some method =>
      exact h.closed.bind (he.call method true _ keywords) fun _ => h.closed.pure _
  | none =>
      refine h.closed.ite (h.closed.pure _) ?_
      exact h.closed.bind (h.closed.readMemory _) fun _ => h.closed.fail _

theorem instantiate (c : ClassRef) (arguments : List Value) (keywords : KeywordValues) :
    P (instantiate e c arguments keywords) := by
  unfold Classlet.instantiate
  refine h.closed.bind (h.closed.readMemory _) fun init => ?_
  cases init with
  | some method => exact h.makeInstance he c (some method) arguments keywords
  | none =>
      refine h.closed.bind (h.closed.readMemory _) fun construction => ?_
      cases construction with
      | some construction => exact h.closed.construct he construction c arguments keywords
      | none =>
          refine h.closed.bind (h.closed.readMemory _) fun ⟨name, isBuiltin⟩ => ?_
          exact h.closed.ite (h.closed.fail _) (h.makeInstance he c none arguments keywords)

theorem callValue (callee : Value) (hasReceiver : Bool) (arguments : List Value)
    (keywords : KeywordValues) : P (callValue e callee hasReceiver arguments keywords) := by
  unfold Classlet.callValue
  split
  · exact h.callReference e _ hasReceiver arguments keywords (h.execStatements he)
  · exact h.callMethodReference he _ arguments keywords
  · exact h.closed.callBuiltin he _ arguments keywords
  · exact h.instantiate he _ arguments keywords
  · exact h.closed.failWithType _ _

omit he in
theorem engine (settings : Settings) (loader : Loader) :
    ∀ fuel : Nat, (engine settings loader fuel).Satisfies P
  | 0 => ⟨fun _ _ _ _ => h.closed.outOfFuel, fun _ _ _ => h.closed.outOfFuel,
      fun _ => h.closed.outOfFuel, fun _ => h.closed.bind (h.closed.read _) fun _ =>
        h.closed.outOfFuel⟩
  | fuel + 1 => by
      have he := engine settings loader fuel
      exact ⟨h.callValue he, h.closed.binaryOperation he, h.closed.reprOperation he,
        fun target => h.importModule _ target (h.execStatements he)⟩

end Eval.Rules

end Classlet
