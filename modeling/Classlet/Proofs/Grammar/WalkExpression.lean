import Classlet.Proofs.Grammar.Operators
import Classlet.Proofs.Grammar.Walk

/-! # Walks for expressions

The rules of the grammar of expressions as walks, each with the proof that it follows the parser.
A walk tells the body of a function by the depths of the cursor: it starts without loops, with one
function more, and the depths before come back behind it. -/

namespace Classlet

/-! ### Rules -/

/-- The walks that the walks of the rules refer back to. -/
structure Walk.Rules where
  /-- A bound on the repetitions of a rule. -/
  passes : Nat
  expression : Walk Expr
  /-- An operand with its signs. -/
  signed : Walk Expr
  /-- An expression that names a class. -/
  typeExpr : Walk Expr
  declaration : Walk Statement

/-- With at most `n` tokens to go, walks follow the parsers that the rules refer back to. -/
structure Track.FollowsRules (T : Track) (n : Nat) (rules : Grammar.Rules) (walks : Walk.Rules) :
    Prop where
  passes : n < rules.passes
  passes' : n < walks.passes
  expression : ∀ d, T.Follows d n false rules.expression walks.expression
  signed : ∀ d, T.Follows d n false rules.signed walks.signed
  typeExpr : ∀ d, T.Follows d n false rules.typeExpr walks.typeExpr
  declaration : ∀ d, T.Follows d n true (rules.declaration d.surroundings) walks.declaration

namespace Walk

open Grammar (maxArguments literalKinds sign? binaryOn logicalOn binaryLevels boundLevels)

variable (rules : Rules)

/-! ### Functions -/

/-- Statements up to the closing brace, at most `fuel` of them. -/
def statementsUntilBrace (declaration : Walk Statement) : Nat → Walk (List Statement)
  | 0 => stuck
  | fuel + 1 => do
    if ← check (.symbol .rightBrace) then pure []
    else if ← atEnd then pure []
    else
      let s ← declaration
      let more ← statementsUntilBrace declaration fuel
      pure (s :: more)

/-- The statements of a block behind its opening brace. -/
def block : Walk (List Statement) := do
  let body ← statementsUntilBrace rules.declaration rules.passes
  let _ ← symbol .rightBrace .afterBlock
  pure body

/-- The body of a function behind its opening brace. -/
def functionBody : Walk (List Statement) := inBody (block rules)

def parameter : Walk Param := do
  let variadic ← acceptSymbol .star
  let name ← identifier .parameterName
  let typeExpr ←
    if ← acceptSymbol .colon then
      let e ← rules.typeExpr
      pure (some e)
    else pure none
  pure (.mk name.lexeme typeExpr variadic)

/-- Parameters behind `count` earlier ones, at most `fuel` of them. -/
def parametersFrom : Nat → Nat → Walk (List Param)
  | 0, _ => stuck
  | fuel + 1, count => do
    if maxArguments ≤ count then fail .tooManyParameters
    else
      let p ← parameter rules
      if ← acceptSymbol .comma then
        let more ← parametersFrom fuel (count + 1)
        pure (p :: more)
      else pure [p]

/-- The parameters of a function behind the opening parenthesis. -/
def parameters : Walk (List Param) := do
  let params ←
    if ← check (.symbol .rightParen) then pure []
    else parametersFrom rules rules.passes 0
  let _ ← symbol .rightParen .afterParameters
  pure params

/-- The classes of the results, if the function gives them. -/
def returnTypes : Walk (List Expr) := do
  if ← acceptSymbol .arrow then
    if ← acceptSymbol .leftParen then
      let types ← items rules.passes rules.typeExpr
      let _ ← symbol .rightParen .afterReturnTypes
      pure types
    else
      let t ← rules.typeExpr
      pure [t]
  else pure []

/-- The rest of a lambda behind `fun`, which stands on line `line`. -/
def lambdaRest (line : UInt32) : Walk Expr := do
  let _ ← symbol .leftParen (.afterWord "fun")
  let params ← parameters rules
  let returns ← returnTypes rules
  let body ←
    if ← acceptSymbol .fatArrow then
      let first ← peek
      let value ← inFunction rules.expression
      pure [Statement.mk first.line (.returnValues [value])]
    else
      let _ ← symbol .leftBrace .beforeLambdaBody
      functionBody rules
  pure (.lambda (.mk "<lambda>" params returns body line))

/-! ### Calls, indices and slices -/

/-- An argument by name or by position, given those before it. -/
def argument (count : Nat) (keywords : List KeywordArg) : Walk (Expr ⊕ KeywordArg) := do
  if maxArguments ≤ count then fail .tooManyArguments
  else if (← check .identifier) && (← checkSecond (.symbol .equal)) then
    let name ← advance
    let _ ← advance
    if keywords.any fun k => k.name == name.lexeme then failAt name (.repeatedKeyword name.lexeme)
    else
      let value ← rules.expression
      pure (.inr (.mk name.lexeme value))
  else if !keywords.isEmpty then fail .positionalAfterKeyword
  else
    let value ← rules.expression
    pure (.inl value)

/-- The arguments of a call behind those already read, at most `fuel` of them. -/
def arguments : Nat → List Expr → List KeywordArg → Walk (List Expr × List KeywordArg)
  | 0, _, _ => stuck
  | fuel + 1, positional, keywords => do
    let (positional, keywords) ←
      match ← argument rules (positional.length + keywords.length) keywords with
      | .inl value => pure (positional ++ [value], keywords)
      | .inr keyword => pure (positional, keywords ++ [keyword])
    if ← acceptSymbol .comma then arguments fuel positional keywords
    else pure (positional, keywords)

/-- The rest of a call behind its opening parenthesis. -/
def callRest (callee : Expr) : Walk Expr := do
  let (positional, keywords) ←
    if ← check (.symbol .rightParen) then pure ([], []) else arguments rules rules.passes [] []
  let _ ← symbol .rightParen .afterArguments
  pure (.call callee positional keywords)

/-- The rest of a slice behind its colon. -/
def sliceRest (object : Expr) (start : Option Expr) : Walk Expr := do
  let stop ←
    if ← check (.symbol .rightBracket) then pure none
    else
      let e ← rules.expression
      pure (some e)
  let _ ← symbol .rightBracket .afterSlice
  pure (.slice object start stop)

/-- The rest of an index or a slice behind its opening bracket. -/
def indexRest (object : Expr) : Walk Expr := do
  if ← acceptSymbol .colon then sliceRest rules object none
  else
    let first ← rules.expression
    if ← acceptSymbol .colon then sliceRest rules object (some first)
    else
      let _ ← symbol .rightBracket .afterIndex
      pure (.index object first)

/-- The postfixes behind an expression, at most `fuel` of them. -/
def postfixes : Nat → Expr → Walk Expr
  | 0, _ => stuck
  | fuel + 1, e => do
    if ← acceptSymbol .leftParen then postfixes fuel (← callRest rules e)
    else if ← acceptSymbol .leftBracket then postfixes fuel (← indexRest rules e)
    else if ← acceptSymbol .dot then
      let name ← identifier .attributeName
      postfixes fuel (.attr e name.lexeme)
    else pure e

/-! ### Primaries -/

/-- The rest of a tuple or of an expression in parentheses, behind the parenthesis. -/
def parenRest : Walk Expr := do
  if ← acceptSymbol .rightParen then pure (.tuple [])
  else
    let first ← rules.expression
    if ← acceptSymbol .comma then
      let more ← itemsUntil .rightParen rules.expression rules.passes
      let _ ← symbol .rightParen .afterTuple
      pure (.tuple (first :: more))
    else
      let _ ← symbol .rightParen .afterExpression
      pure first

/-- The rest of a list behind its opening bracket. -/
def listRest : Walk Expr := do
  let elements ← itemsUntil .rightBracket rules.expression rules.passes
  let _ ← symbol .rightBracket .afterList
  pure (.list elements)

def primary : Walk Expr := do
  if ← acceptAny literalKinds then
    let t ← previous
    match t.literal with
    | some value => pure (.literal value)
    | none => failAt t (.lacking .literal)
  else if ← acceptAny [.identifier] then return .var (← previous).lexeme
  else if ← acceptSymbol .leftParen then parenRest rules
  else if ← acceptSymbol .leftBracket then listRest rules
  else if ← acceptKeyword .fun then lambdaRest rules (← previous).line
  else fail (.lacking .expression)

/-! ### Operators -/

def postfixed : Walk Expr := do
  let e ← primary rules
  postfixes rules rules.passes e

/-- A postfix expression, perhaps raised to a power. -/
def power : Walk Expr := do
  let base ← postfixed rules
  if ← acceptSymbol .starStar then
    let exponent ← rules.signed
    pure (.binary .pow base exponent)
  else pure base

/-- A power behind at most `fuel` signs. -/
def signed : Nat → Walk Expr
  | 0 => stuck
  | fuel + 1 => do
    match sign? (← peek).kind with
    | some op =>
      let _ ← advance
      let e ← signed fuel
      pure (.unary op e)
    | none => power rules

/-- Operands of the tightest level joined by the operators of the given levels. -/
def binary : List (List BinaryOp) → Walk Expr
  | [] => signed rules rules.passes
  | operators :: tighter => chained rules.passes (binaryOn operators) (binary tighter)

/-- A comparison behind at most `fuel` times `not`. -/
def negation : Nat → Walk Expr
  | 0 => stuck
  | fuel + 1 => do
    if ← acceptKeyword .not then
      let e ← negation fuel
      pure (.not e)
    else binary rules binaryLevels

def conjunction : Walk Expr :=
  chained rules.passes (logicalOn .and .and) (negation rules rules.passes)

/-- Conjunctions joined by `or`: any expression. -/
def expression : Walk Expr := chained rules.passes (logicalOn .or .or) (conjunction rules)

/-- A bound of a range, which is no comparison. -/
def rangeBound : Walk Expr := binary rules boundLevels

end Walk

/-! ### What the walks follow -/

namespace Track.FollowsRules

open Grammar (maxArguments literalKinds isLiteralKind_iff sign? signed_cons negation_cons
  binaryLevels boundLevels)

variable {T : Track} {d : Depths} {m n : Nat} {rules : Grammar.Rules} {walks : Walk.Rules}

theorem mono (h : T.FollowsRules n rules walks) (hm : m ≤ n) : T.FollowsRules m rules walks where
  passes := Nat.lt_of_le_of_lt hm h.passes
  passes' := Nat.lt_of_le_of_lt hm h.passes'
  expression d := (h.expression d).mono hm
  signed d := (h.signed d).mono hm
  typeExpr d := (h.typeExpr d).mono hm
  declaration d := (h.declaration d).mono hm

section rules
variable (h : T.FollowsRules n rules walks)
include h

theorem le_passes : n ≤ rules.passes := Nat.le_of_lt h.passes

theorem le_passes' : n ≤ walks.passes := Nat.le_of_lt h.passes'

/-! ### Functions -/

theorem statementsUntilBrace : ∀ {m fuel fuel' : Nat}, m ≤ n → m ≤ fuel → m ≤ fuel' →
    T.Follows d m false (Grammar.statementsUntilBrace (rules.declaration d.surroundings) fuel)
      (Walk.statementsUntilBrace walks.declaration fuel')
  | 0, _, _, _, _, _ => .empty
  | m + 1, fuel + 1, fuel' + 1, hm, hfuel, hfuel' => by
      unfold Grammar.statementsUntilBrace Walk.statementsUntilBrace
      refine .andThen (.check (by simp)) fun _ => .ite (.pure []) ?_
      refine .andThen .atEnd fun _ => .ite (.pure []) ?_
      refine .behind ((h.declaration d).mono hm) fun s m' hm' => ?_
      exact .andThen (statementsUntilBrace (by omega) (by omega) (by omega)) fun more =>
        .pure (s :: more)

theorem block : T.Follows d n true (Grammar.block rules d.surroundings) (Walk.block walks) := by
  unfold Grammar.block Walk.block
  exact .andThen (h.statementsUntilBrace (Nat.le_refl n) h.le_passes h.le_passes')
    fun body => .closed body

theorem functionBody : T.Follows d n true (Grammar.functionBody rules) (Walk.functionBody walks) :=
  .inBody h.block

theorem parameter : T.Follows d n false (Grammar.parameter rules) (Walk.parameter walks) := by
  unfold Grammar.parameter Walk.parameter
  refine .optional fun variadic => .behind (.identifier _) fun name m hm => ?_
  refine .acceptSymbolThen (fun m' hm' => ?_) (.pure _)
  exact .andThen ((h.typeExpr d).mono (by omega)) fun e => .pure _

theorem parametersFrom : ∀ {m fuel fuel' : Nat}, m ≤ n → m ≤ fuel → m ≤ fuel' → ∀ count,
    T.Follows d m false (Grammar.parametersFrom rules fuel count)
      (Walk.parametersFrom walks fuel' count)
  | 0, _, _, _, _, _, _ => .empty
  | m + 1, fuel + 1, fuel' + 1, hm, hfuel, hfuel', count => by
      unfold Grammar.parametersFrom Walk.parametersFrom
      split
      · exact .fail _
      refine .andThen (h.parameter.mono hm) fun p => ?_
      refine .acceptSymbolThen (fun m' hm' => ?_) (.pure [p])
      exact .andThen (parametersFrom (by omega) (by omega) (by omega) _) fun more =>
        .pure (p :: more)

theorem parameters : T.Follows d n true (Grammar.parameters rules) (Walk.parameters walks) := by
  unfold Grammar.parameters Walk.parameters
  refine .andThen (.check (by simp)) fun closes => .ite (.closed []) ?_
  exact .andThen (h.parametersFrom (Nat.le_refl n) h.le_passes h.le_passes' 0) .closed

theorem returnTypes : T.Follows d n false (Grammar.returnTypes rules) (Walk.returnTypes walks) := by
  unfold Grammar.returnTypes Walk.returnTypes
  refine .acceptSymbolThen (fun m hm => ?_) (.pure [])
  refine .acceptSymbolThen (fun m' hm' => ?_) ?_
  · have hitems := (h.typeExpr d).items h.le_passes h.le_passes'
    exact .andThen (hitems.mono (by omega)) .closed
  · exact .andThen ((h.typeExpr d).mono (by omega)) fun t => .pure [t]

theorem lambdaRest (line : UInt32) :
    T.Follows d n false (Grammar.lambdaRest rules line) (Walk.lambdaRest walks line) := by
  unfold Grammar.lambdaRest Walk.lambdaRest
  refine .behind (.symbol _ _) fun _ m hm => ?_
  refine .andThen (h.parameters.mono (Nat.le_of_lt hm)) fun params => ?_
  refine .andThen (h.returnTypes.mono (Nat.le_of_lt hm)) fun returns => ?_
  refine .acceptSymbolThen (fun m' hm' => ?_) ?_
  · refine .andThen .peek fun first => ?_
    have hvalue := (h.expression d.enterFunction).inFunction
    exact .andThen (hvalue.mono (by omega)) fun value => .pure _
  · refine .behind (.symbol _ _) fun _ m' hm' => ?_
    exact .andThen (h.functionBody.mono (by omega)) fun body => .pure _

/-! ### Calls, indices and slices -/

theorem argument (count : Nat) (keywords : List KeywordArg) :
    T.Follows d n false (Grammar.argument rules count keywords)
      (Walk.argument walks count keywords) := by
  unfold Grammar.argument Walk.argument
  split
  · exact .fail _
  refine .takeTwo (by simp) (by simp) (fun name => ?_) ?_
  · exact .ite (.failAt _ _) (.andThen (h.expression d) fun value => .pure _)
  · exact .ite (.fail _) (.andThen (h.expression d) fun value => .pure _)

theorem arguments : ∀ {m fuel fuel' : Nat}, m ≤ n → m ≤ fuel → m ≤ fuel' →
    ∀ positional keywords, T.Follows d m false
      (Grammar.arguments rules fuel positional keywords)
      (Walk.arguments walks fuel' positional keywords)
  | 0, _, _, _, _, _, _, _ => .empty
  | m + 1, fuel + 1, fuel' + 1, hm, hfuel, hfuel', positional, keywords => by
      unfold Grammar.arguments Walk.arguments
      have hmore : ∀ positional keywords, T.Follows d (m + 1) false
          (Parser.acceptSymbol .comma >>= fun comma =>
            if comma then Grammar.arguments rules fuel positional keywords
            else pure (positional, keywords))
          (Walk.acceptSymbol .comma >>= fun comma =>
            if comma then Walk.arguments walks fuel' positional keywords
            else pure (positional, keywords)) := fun positional keywords =>
        .acceptSymbolThen (fun m' hm' => arguments (m := m') (by omega) (by omega) (by omega) _ _)
          (.pure _)
      refine .andThen ((h.argument _ _).mono hm) fun a => ?_
      cases a with
      | inl value => exact hmore _ _
      | inr keyword => exact hmore _ _

theorem callRest (callee : Expr) :
    T.Follows d n true (Grammar.callRest rules callee) (Walk.callRest walks callee) := by
  unfold Grammar.callRest Walk.callRest
  refine .andThen (.check (by simp)) fun closes => .ite (.closed _) ?_
  exact .andThen (h.arguments (Nat.le_refl n) h.le_passes h.le_passes'
    [] []) fun args => .closed _

theorem sliceRest (object : Expr) (start : Option Expr) :
    T.Follows d n false (Grammar.indexRest.sliceRest rules object start)
      (Walk.sliceRest walks object start) := by
  unfold Grammar.indexRest.sliceRest Walk.sliceRest
  refine .andThen (.check (by simp)) fun closes => .ite (.closed _) ?_
  exact .andThen (h.expression d) fun stop => .closed _

theorem indexRest (object : Expr) :
    T.Follows d n false (Grammar.indexRest rules object) (Walk.indexRest walks object) := by
  unfold Grammar.indexRest Walk.indexRest
  refine .acceptSymbolThen (fun m hm => (h.sliceRest object none).mono (Nat.le_of_lt hm)) ?_
  refine .andThen (h.expression d) fun first => ?_
  refine .acceptSymbolThen (fun m hm => (h.sliceRest object _).mono (Nat.le_of_lt hm)) ?_
  exact .closed _

theorem postfixes : ∀ {m fuel fuel' : Nat}, m ≤ n + 1 → m ≤ fuel → m ≤ fuel' → ∀ e,
    T.Follows d m false (Grammar.postfixes rules fuel e) (Walk.postfixes walks fuel' e)
  | 0, _, _, _, _, _, _ => .empty
  | m + 1, fuel + 1, fuel' + 1, hm, hfuel, hfuel', e => by
      unfold Grammar.postfixes Walk.postfixes
      have hmore : ∀ m' < m + 1, ∀ e, T.Follows d m' false (Grammar.postfixes rules fuel e)
          (Walk.postfixes walks fuel' e) := fun m' hm' =>
        postfixes (m := m') (by omega) (by omega) (by omega)
      refine .acceptSymbolThen (fun m' hm' => ?_) ?_
      · exact .andThen ((h.callRest e).mono (by omega)) fun e => hmore m' hm' e
      refine .acceptSymbolThen (fun m' hm' => ?_) ?_
      · exact .andThen ((h.indexRest e).mono (by omega)) fun e => hmore m' hm' e
      refine .acceptSymbolThen (fun m' hm' => ?_) (.pure e)
      exact .behind (.identifier _) fun name m'' hm'' => hmore m'' (by omega) _

/-! ### Primaries -/

theorem parenRest : T.Follows d n false (Grammar.parenRest rules) (Walk.parenRest walks) := by
  unfold Grammar.parenRest Walk.parenRest
  refine .acceptSymbolThen (fun m hm => .pure _) ?_
  refine .andThen (h.expression d) fun first => .acceptSymbolThen (fun m hm => ?_) ?_
  · have h := h.mono (Nat.le_of_lt hm)
    exact .andThen ((h.expression d).itemsUntil (Nat.le_refl m) h.le_passes h.le_passes')
      fun more => .closed _
  · exact .closed first

theorem listRest : T.Follows d n false (Grammar.listRest rules) (Walk.listRest walks) := by
  unfold Grammar.listRest Walk.listRest
  exact .andThen ((h.expression d).itemsUntil (Nat.le_refl n) h.le_passes h.le_passes')
    fun elements => .closed _

theorem primary : T.Follows d (n + 1) false (Grammar.primary rules) (Walk.primary walks) := by
  intro i hi hn
  rw [T.drop_eq hi, Grammar.primary, Walk.primary]
  have hliterals : TokenKind.endOfInput ∉ literalKinds := by decide
  refine .acceptAny hi hliterals (fun hliteral => ?_) fun hliteral => ?_
  · have hlt := T.succ_lt hi fun heq => hliterals (heq ▸ hliteral)
    rw [if_pos (isLiteralKind_iff.mpr hliteral), if_pos rfl, Walk.bind_of_ok (previous_apply hi)]
    cases T.tokens[i].literal with
    | some value => exact .loose (Nat.le_succ i) hlt
    | none => exact .error (Nat.le_succ i) hlt
  rw [if_neg (mt isLiteralKind_iff.mp hliteral), if_neg Bool.false_ne_true]
  refine .acceptOne hi (by simp) (fun hname => ?_) fun hname => ?_
  · rw [if_pos hname, if_pos rfl, Walk.bind_of_ok (previous_apply hi)]
    exact .loose (Nat.le_succ i) (T.succ_lt hi (by simp [hname]))
  rw [if_neg hname, if_neg Bool.false_ne_true]
  refine .acceptSymbol hi (fun hparen => ?_) fun hparen => ?_
  · rw [if_pos hparen]
    exact h.parenRest.onward (Nat.le_refl _) hi hn (by simp [hparen])
  rw [if_neg hparen, if_neg Bool.false_ne_true]
  refine .acceptSymbol hi (fun hbracket => ?_) fun hbracket => ?_
  · rw [if_pos hbracket]
    exact h.listRest.onward (Nat.le_refl _) hi hn (by simp [hbracket])
  rw [if_neg hbracket, if_neg Bool.false_ne_true]
  refine .acceptKeyword hi (fun hfun => ?_) fun hfun => ?_
  · rw [if_pos hfun, if_pos rfl, Walk.bind_of_ok (previous_apply hi)]
    exact (h.lambdaRest _).onward (Nat.le_refl _) hi hn (by simp [hfun])
  · rw [if_neg hfun, ← T.drop_eq hi]
    exact Follows.fail _ i hi hn

/-! ### Operators -/

theorem postfixed : T.Follows d (n + 1) false (Grammar.postfixed rules) (Walk.postfixed walks) :=
  .andThen h.primary fun e => h.postfixes (Nat.le_refl _) h.passes h.passes' e

theorem power : T.Follows d (n + 1) false (Grammar.power rules) (Walk.power walks) := by
  refine .andThen h.postfixed fun base => .acceptSymbolThen (fun m hm => ?_) (.pure base)
  exact .andThen ((h.signed d).mono (by omega)) fun exponent => .pure _

theorem signs : ∀ {m fuel : Nat}, m ≤ n + 1 → m ≤ fuel →
    T.Follows d m false (Grammar.signed rules) (Walk.signed walks fuel)
  | 0, _, _, _ => .empty
  | m + 1, fuel + 1, hm, hfuel => by
      intro i hi hn
      rw [Walk.signed, Walk.bind_of_ok (peek_apply hi)]
      cases hsign : sign? T.tokens[i].kind with
      | some op =>
          have hend : T.tokens[i].kind ≠ .endOfInput := fun heq => by
            rw [heq] at hsign
            cases hsign
          have hoperand : T.Follows d m false
              (Grammar.signed rules >>= fun e => pure (Expr.unary op e))
              (Walk.signed walks fuel >>= fun e => pure (Expr.unary op e)) :=
            .andThen (signs (by omega) (by omega)) fun e => .pure _
          simp only
          rw [T.drop_eq hi, signed_cons hsign, Walk.bind_of_ok (advance_apply hi hend)]
          exact hoperand.onward (Nat.le_refl _) hi hn hend
      | none =>
          have hpower : Grammar.signed rules (T.tokens.drop i) =
              Grammar.power rules (T.tokens.drop i) := by
            rw [T.drop_eq hi, Grammar.signed, hsign]
          rw [hpower]
          exact h.power.mono hm i hi hn

theorem binary : ∀ levels, T.Follows d (n + 1) false (Grammar.binary rules levels)
    (Walk.binary walks levels)
  | [] => h.signs (Nat.le_refl _) h.passes'
  | _ :: tighter => (binary tighter).chained rfl h.passes h.passes'

theorem negations : ∀ {m fuel : Nat}, m ≤ n + 1 → m ≤ fuel →
    T.Follows d m false (Grammar.negation rules) (Walk.negation walks fuel)
  | 0, _, _, _ => .empty
  | m + 1, fuel + 1, hm, hfuel => by
      intro i hi hn
      rw [T.drop_eq hi, Walk.negation]
      refine .acceptKeyword hi (fun hword => ?_) fun hword => ?_
      · have hoperand : T.Follows d m false
            (Grammar.negation rules >>= fun e => pure (Expr.not e))
            (Walk.negation walks fuel >>= fun e => pure (Expr.not e)) :=
          .andThen (negations (by omega) (by omega)) fun e => .pure _
        rw [negation_cons hword]
        exact hoperand.onward (Nat.le_refl _) hi hn (by simp [hword])
      · rw [Grammar.negation, if_neg hword, ← T.drop_eq hi]
        exact (h.binary binaryLevels).mono hm i hi hn

theorem conjunction :
    T.Follows d (n + 1) false (Grammar.conjunction rules) (Walk.conjunction walks) :=
  (h.negations (Nat.le_refl _) h.passes').chained rfl h.passes h.passes'

theorem next_expression :
    T.Follows d (n + 1) false (Grammar.expression rules) (Walk.expression walks) :=
  h.conjunction.chained rfl h.passes h.passes'

theorem rangeBound :
    T.Follows d (n + 1) false (Grammar.rangeBound rules) (Walk.rangeBound walks) :=
  h.binary boundLevels

end rules

end Track.FollowsRules

end Classlet
