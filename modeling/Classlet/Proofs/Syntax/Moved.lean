import Classlet.Syntax

/-! # Trees on later lines

`Statement.moved k` is a statement that stands `k` lines further down in its text: the line of every
statement, function and handler in it is greater by `k`, and nothing else is different. -/

namespace Classlet

mutual

/-- An expression `k` lines further down; only the statements of lambdas know their lines. -/
def Expr.moved (k : UInt32) : Expr → Expr
  | .literal value => .literal value
  | .var name => .var name
  | .tuple elements => .tuple (elements.map (Expr.moved k))
  | .list elements => .list (elements.map (Expr.moved k))
  | .unary op operand => .unary op (operand.moved k)
  | .not operand => .not (operand.moved k)
  | .binary op left right => .binary op (left.moved k) (right.moved k)
  | .logical op left right => .logical op (left.moved k) (right.moved k)
  | .call callee arguments keywords =>
    .call (callee.moved k) (arguments.map (Expr.moved k)) (keywords.map (KeywordArg.moved k))
  | .attr object name => .attr (object.moved k) name
  | .index object i => .index (object.moved k) (i.moved k)
  | .slice object start stop => .slice (object.moved k) (movedBound k start) (movedBound k stop)
  | .lambda decl => .lambda (decl.moved k)

/-- An expression that may be left out, `k` lines further down. -/
def movedBound (k : UInt32) : Option Expr → Option Expr
  | none => none
  | some x => some (x.moved k)

/-- An argument by name `k` lines further down. -/
def KeywordArg.moved (k : UInt32) : KeywordArg → KeywordArg
  | .mk name value => .mk name (value.moved k)

/-- A parameter `k` lines further down. -/
def Param.moved (k : UInt32) : Param → Param
  | .mk name typeExpr variadic => .mk name (movedBound k typeExpr) variadic

/-- A function `k` lines further down. -/
def FunctionDecl.moved (k : UInt32) : FunctionDecl → FunctionDecl
  | .mk name params returns body line =>
    .mk name (params.map (Param.moved k)) (returns.map (Expr.moved k))
      (body.map (Statement.moved k)) (line + k)

/-- A member of a class `k` lines further down. -/
def ClassMember.moved (k : UInt32) : ClassMember → ClassMember
  | .method decl => .method (decl.moved k)
  | .operator decl => .operator (decl.moved k)
  | .attr name value => .attr name (value.moved k)

/-- The members of a class `k` lines further down. -/
def movedMembers (k : UInt32) : List ClassMember → List ClassMember
  | [] => []
  | m :: members => m.moved k :: movedMembers k members

/-- A branch `k` lines further down. -/
def Branch.moved (k : UInt32) : Branch → Branch
  | .mk condition body => .mk (condition.moved k) (body.map (Statement.moved k))

/-- A handler `k` lines further down. -/
def CatchClause.moved (k : UInt32) : CatchClause → CatchClause
  | .mk name errorType body line =>
    .mk name (errorType.moved k) (body.map (Statement.moved k)) (line + k)

/-- A statement `k` lines further down. -/
def Statement.moved (k : UInt32) : Statement → Statement
  | .mk line kind => .mk (line + k) (kind.moved k)

/-- What a statement does, `k` lines further down. -/
def StatementKind.moved (k : UInt32) : StatementKind → StatementKind
  | .expression x => .expression (x.moved k)
  | .assign targets values => .assign (targets.map (Expr.moved k)) (values.map (Expr.moved k))
  | .block body catches => .block (body.map (Statement.moved k)) (catches.map (CatchClause.moved k))
  | .ifElse branches otherwise =>
    .ifElse (branches.map (Branch.moved k)) (movedElse k otherwise)
  | .forRange name start stop body =>
    .forRange name (start.moved k) (stop.moved k) (body.map (Statement.moved k))
  | .whileDo condition body => .whileDo (condition.moved k) (body.map (Statement.moved k))
  | .loop body => .loop (body.map (Statement.moved k))
  | .breakLoop => .breakLoop
  | .returnValues values => .returnValues (values.map (Expr.moved k))
  | .throwValue value => .throwValue (value.moved k)
  | .function decl => .function (decl.moved k)
  | .classDecl name base members isStruct =>
    .classDecl name (movedBound k base) (movedMembers k members) isStruct
  | .importModule path newName => .importModule path newName

/-- The statements of an `else`, `k` lines further down. -/
def movedElse (k : UInt32) : Option (List Statement) → Option (List Statement)
  | none => none
  | some body => some (body.map (Statement.moved k))

end

attribute [simp] Expr.moved KeywordArg.moved Param.moved FunctionDecl.moved ClassMember.moved
  Branch.moved CatchClause.moved Statement.moved StatementKind.moved

theorem movedBound_eq_map (k : UInt32) (x : Option Expr) :
    movedBound k x = x.map (Expr.moved k) := by
  cases x <;> simp [movedBound]

@[simp] theorem movedMembers_eq_map (k : UInt32) (members : List ClassMember) :
    movedMembers k members = members.map (ClassMember.moved k) := by
  induction members with
  | nil => simp [movedMembers]
  | cons m members ih => simp [movedMembers, ih]

theorem KeywordArg.name_moved (k : UInt32) (a : KeywordArg) : (a.moved k).name = a.name := by
  cases a
  simp [KeywordArg.name]

theorem Expr.isAssignable_moved (k : UInt32) (x : Expr) :
    (x.moved k).isAssignable = x.isAssignable := by
  cases x <;> simp [Expr.isAssignable]

/-! ### No lines further down -/

private theorem map_of_moved_zero {α : Type} {moved : α → α} {xs : List α}
    (h : ∀ x ∈ xs, moved x = x) : xs.map moved = xs :=
  (List.map_congr_left h).trans (List.map_id' xs)

mutual

theorem Expr.moved_zero : ∀ x : Expr, x.moved 0 = x
  | .literal _ | .var _ => by simp
  | .tuple xs | .list xs => by
      have h := map_of_moved_zero fun x (_ : x ∈ xs) => x.moved_zero
      simp [h]
  | .unary _ x | .not x | .attr x _ => by simp [x.moved_zero]
  | .binary _ x y | .logical _ x y | .index x y => by simp [x.moved_zero, y.moved_zero]
  | .call x xs ks => by
      have hx := map_of_moved_zero fun x (_ : x ∈ xs) => x.moved_zero
      have hk := map_of_moved_zero fun a (_ : a ∈ ks) => a.moved_zero
      simp [x.moved_zero, hx, hk]
  | .slice x a b => by simp [x.moved_zero, movedBound_zero a, movedBound_zero b]
  | .lambda decl => by simp [decl.moved_zero]

theorem movedBound_zero : ∀ x : Option Expr, movedBound 0 x = x
  | none => by simp [movedBound]
  | some x => by simp [movedBound, x.moved_zero]

theorem KeywordArg.moved_zero : ∀ a : KeywordArg, a.moved 0 = a
  | .mk _ x => by simp [x.moved_zero]

theorem Param.moved_zero : ∀ p : Param, p.moved 0 = p
  | .mk _ x _ => by simp [movedBound_zero x]

theorem FunctionDecl.moved_zero : ∀ decl : FunctionDecl, decl.moved 0 = decl
  | .mk _ ps rs body _ => by
      have hp := map_of_moved_zero fun p (_ : p ∈ ps) => p.moved_zero
      have hr := map_of_moved_zero fun r (_ : r ∈ rs) => r.moved_zero
      have hb := map_of_moved_zero fun s (_ : s ∈ body) => s.moved_zero
      simp [hp, hr, hb]

theorem ClassMember.moved_zero : ∀ m : ClassMember, m.moved 0 = m
  | .method decl | .operator decl => by simp [decl.moved_zero]
  | .attr _ x => by simp [x.moved_zero]

theorem Branch.moved_zero : ∀ b : Branch, b.moved 0 = b
  | .mk x body => by
      have hb := map_of_moved_zero fun s (_ : s ∈ body) => s.moved_zero
      simp [x.moved_zero, hb]

theorem CatchClause.moved_zero : ∀ c : CatchClause, c.moved 0 = c
  | .mk _ x body _ => by
      have hb := map_of_moved_zero fun s (_ : s ∈ body) => s.moved_zero
      simp [x.moved_zero, hb]

theorem Statement.moved_zero : ∀ s : Statement, s.moved 0 = s
  | .mk _ kind => by simp [kind.moved_zero]

theorem StatementKind.moved_zero : ∀ kind : StatementKind, kind.moved 0 = kind
  | .expression x | .throwValue x => by simp [x.moved_zero]
  | .assign xs ys => by
      have hx := map_of_moved_zero fun x (_ : x ∈ xs) => x.moved_zero
      have hy := map_of_moved_zero fun y (_ : y ∈ ys) => y.moved_zero
      simp [hx, hy]
  | .block body catches => by
      have hb := map_of_moved_zero fun s (_ : s ∈ body) => s.moved_zero
      have hc := map_of_moved_zero fun c (_ : c ∈ catches) => c.moved_zero
      simp [hb, hc]
  | .ifElse branches otherwise => by
      have hb := map_of_moved_zero fun b (_ : b ∈ branches) => b.moved_zero
      simp [hb, movedElse_zero otherwise]
  | .forRange _ x y body => by
      have hb := map_of_moved_zero fun s (_ : s ∈ body) => s.moved_zero
      simp [x.moved_zero, y.moved_zero, hb]
  | .whileDo x body => by
      have hb := map_of_moved_zero fun s (_ : s ∈ body) => s.moved_zero
      simp [x.moved_zero, hb]
  | .loop body => by
      have hb := map_of_moved_zero fun s (_ : s ∈ body) => s.moved_zero
      simp [hb]
  | .breakLoop | .importModule .. => by simp
  | .returnValues xs => by
      have hx := map_of_moved_zero fun x (_ : x ∈ xs) => x.moved_zero
      simp [hx]
  | .function decl => by simp [decl.moved_zero]
  | .classDecl _ base members _ => by
      have hm := map_of_moved_zero fun m (hmem : m ∈ members) => by
        have hlt := List.sizeOf_lt_of_mem hmem
        exact m.moved_zero
      simp [movedBound_zero base, hm]

theorem movedElse_zero : ∀ body : Option (List Statement), movedElse 0 body = body
  | none => by simp [movedElse]
  | some body => by
      have hb := map_of_moved_zero fun s (_ : s ∈ body) => s.moved_zero
      simp [movedElse, hb]

end

end Classlet
