import Classlet.Interpreter.Assignment
import Classlet.Interpreter.Class

/-! # Statements

`Engine.execStatement` runs a statement.  It completes normally, or it leaves the statements
around it with `break` or `return`; an error is an outcome of its own.

* Blocks, branches, handlers and every pass of a loop run in a scope of their own.
* An error that leaves a statement takes the statement into its trace, unless a statement of the
  same activation is already there.
* The classes of all handlers of a `try` block are evaluated before its body runs.  The first
  handler whose class is the class of the error or stands above it takes the error. -/

namespace Classlet

open Eval

/-- How a statement completes. -/
inductive Completion where
  | normal
  /-- It leaves the innermost loop. -/
  | broken
  /-- It leaves the function with a value. -/
  | returned (v : Value)
  deriving Inhabited

/-- The value with which a function body ends. -/
def Completion.value : Completion → Value
  | returned v => v
  | _ => .nil

/-! ### Loops -/

/-- Run `body` on `count` numbers from `i` on. -/
def countedLoop (body : Int → Eval Completion) : Nat → Int → Eval Completion
  | 0, _ => pure .normal
  | count + 1, i => fun s =>
    match body i s with
    | (.ok .normal, s) => countedLoop body count (i + 1) s
    | (.ok .broken, s) => (.ok .normal, s)
    | (outcome, s) => (outcome, s)

/-- Run `body` as long as `test` holds, at most `passes` times. -/
def guardedLoop (test : Eval Bool) (body : Eval Completion) : Nat → Eval Completion
  | 0 => stop .outOfFuel
  | passes + 1 => fun s =>
    match test s with
    | (.ok true, s) =>
      match body s with
      | (.ok .normal, s) => guardedLoop test body passes s
      | (.ok .broken, s) => (.ok .normal, s)
      | (outcome, s) => (outcome, s)
    | (.ok false, s) => (.ok .normal, s)
    | (.raised error, s) => (.raised error, s)
    | (.stopped why, s) => (.stopped why, s)

/-! ### Errors -/

/-- Note in the trace of an error that it leaves a statement. -/
def recording (statement : Statement) (x : Eval Completion) : Eval Completion := fun s =>
  match x s with
  | (.raised error, s) => (.raised (error.record s.depth (s.traceFrame statement)), s)
  | (outcome, s) => (outcome, s)

/-- Run `handler` on an error of `x`. -/
def handling (x : Eval Completion) (handler : RuntimeError → Eval Completion) : Eval Completion :=
  fun s =>
    match x s with
    | (.raised error, s) => handler error s
    | (outcome, s) => (outcome, s)

def Raised.classRef : Raised → ClassRef
  | .cause c => c.kind.classRef
  | .thrown i => i.ofClass

/-- The exception that a handler sees: what was thrown, or an instance made for an error of the
runtime. -/
def exceptionOf : Raised → Eval Value
  | .cause c => do
    let i ← remember fun m => m.newInstance c.kind.classRef [("message", .str c.message)]
    pure (.instance i)
  | .thrown i => pure (.instance i)

variable (e : Engine)

def catchClass (x : Expr) : Eval ClassRef := do
  match ← e.evalExpr x with
  | .ofClass c =>
    if ← readMemory fun m => m.isErrorClass c then pure c
    else fail (.catchNonError (← readMemory fun m => m.className c))
  | v => failWithType v .catchNonClass

def catchClasses : List CatchClause → Eval (List ClassRef)
  | [] => pure []
  | .mk _ errorType _ _ :: more => do
    let c ← catchClass e errorType
    let cs ← catchClasses more
    pure (c :: cs)

/-- Throw a value, which has to be an instance of an error class. -/
def throwValue (v : Value) : Eval Completion := fun s =>
  match v with
  | .instance i =>
    if s.memory.isErrorClass i.ofClass then raise (.thrown i) s
    else fail .notThrowable s
  | _ => fail .notThrowable s

/-! ### Simple statements -/

/-- Run something that completes normally. -/
def completing (x : Eval Unit) : Eval Completion := do
  x
  pure .normal

def rangeBound (x : Expr) : Eval Int := do
  match ← e.evalExpr x with
  | .int n => pure n.toInt
  | v => failWithType v .rangeBoundType

def condition (x : Expr) : Eval Bool := do
  let v ← e.evalExpr x
  truthy e v

/-- The result of a `return` with some values. -/
def resultOf : List Value → Value
  | [] => .nil
  | [v] => v
  | vs => .tuple vs

/-- Define a function and bind its name. -/
def defineFunction (decl : FunctionDecl) : Eval Unit := do
  let f ← e.makeFunction decl none
  assign (← context) decl.name (.function f)

/-- Import a module and bind it to a new name or to its own name. -/
def importAs (path : ImportPath) (newName : Option String) : Eval Unit := do
  let importer ← read fun s => s.activation.module
  let r ← e.importModule path importer
  let name ← readMemory fun m => newName.getD (m.moduleInfo r).name
  assign (← context) name (.module r)

/-- Run `body` in a new scope in which a name is bound. -/
def withVariable (name : String) (v : Value) (body : Eval Completion) : Eval Completion :=
  inNewScope do
    define (← context) name v
    body

/-! ### All statements -/

mutual

def Engine.execStatement : Statement → Eval Completion
  | .mk line kind => recording (.mk line kind) (execKind kind)
termination_by structural statement => statement

/-- Run statements until one does not complete normally. -/
def Engine.execStatements : List Statement → Eval Completion
  | [] => pure .normal
  | statement :: more => fun s =>
    match Engine.execStatement statement s with
    | (.ok .normal, s) => Engine.execStatements more s
    | (outcome, s) => (outcome, s)
termination_by structural statements => statements

/-- Run a statement, without taking it into a trace. -/
def execKind : StatementKind → Eval Completion
  | .expression x => do
    let _ ← e.evalExpr x
    pure .normal
  | .assign targets values => completing (assignment e targets values)
  | .block body [] => inNewScope (Engine.execStatements body)
  | .block body (clause :: clauses) => do
    let classes ← catchClasses e (clause :: clauses)
    handling (inNewScope (Engine.execStatements body)) (execHandlers (clause :: clauses) classes)
  | .ifElse branches otherwise => execBranches branches (execOtherwise otherwise)
  | .forRange name start stop body => do
    let i ← rangeBound e start
    let j ← rangeBound e stop
    countedLoop (fun k => withVariable name (.int (Int64.ofInt k)) (Engine.execStatements body))
      (j - i).toNat i
  | .whileDo test body =>
    guardedLoop (condition e test) (inNewScope (Engine.execStatements body)) e.passes
  | .loop body => guardedLoop (pure true) (inNewScope (Engine.execStatements body)) e.passes
  | .breakLoop => pure .broken
  | .returnValues values => do
    let vs ← evalAll e values
    pure (.returned (resultOf vs))
  | .throwValue value => do
    let v ← e.evalExpr value
    throwValue v
  | .function decl => completing (defineFunction e decl)
  | .classDecl name base members isStruct => completing (defineClass e name base members isStruct)
  | .importModule path newName => completing (importAs e path newName)
termination_by structural kind => kind

/-- Run the first branch whose condition holds. -/
def execBranches : List Branch → Eval Completion → Eval Completion
  | [], otherwise => otherwise
  | .mk test body :: more, otherwise => do
    if ← condition e test then inNewScope (Engine.execStatements body)
    else execBranches more otherwise
termination_by structural branches => branches

/-- Run the branch without a condition, if there is one. -/
def execOtherwise : Option (List Statement) → Eval Completion
  | none => pure .normal
  | some body => inNewScope (Engine.execStatements body)
termination_by structural otherwise => otherwise

/-- Run the first handler that takes an error, or raise the error again. -/
def execHandlers : List CatchClause → List ClassRef → RuntimeError → Eval Completion
  | .mk name _ body _ :: more, c :: cs, error => do
    if ← readMemory fun m => m.shouldCatch error.raised.classRef c then
      let exception ← exceptionOf error.raised
      withVariable name exception (Engine.execStatements body)
    else execHandlers more cs error
  | _, _, error => raise error
termination_by structural clauses => clauses

end

end Classlet
