import Classlet.Proofs.Grammar.WalkExpression

/-! # Walks for statements

The rules of the grammar of statements as walks, each with the proof that it follows the parser.
A walk knows from the depths of the cursor whether `return` and `break` may stand where they do.

Behind each reference of a rule back to the rules there is one token less to go, so walks with
nesting and repetitions enough for the tokens follow the parsers (`rulesAt_follows`). -/

namespace Classlet

namespace Walk

open Grammar (maxArguments tupleOrSingle)

variable (rules : Rules)

/-! ### Declarations -/

/-- The rest of a function behind its name. -/
def functionRest (name : String) (line : UInt32) : Walk FunctionDecl := do
  let _ ← symbol .leftParen (.afterWord name)
  let params ← parameters rules
  let returns ← returnTypes rules
  let _ ← symbol .leftBrace (.beforeBodyOf name)
  let body ← functionBody rules
  pure (.mk name params returns body line)

def function : Walk FunctionDecl := do
  let name ← identifier .functionName
  functionRest rules name.lexeme name.line

/-- The name of the operator that a class defines, behind the reserved word. -/
def operatorName : Walk String := do
  let t ← advance
  match t.kind with
  | .symbol .leftBracket =>
    let _ ← symbol .rightBracket (.afterWord "[")
    if ← acceptSymbol .equal then pure "[]=" else pure "[]"
  | .symbol .tilde => pure "~"
  | .symbol s =>
    match BinaryOp.ofToken? s with
    | some op => pure op.symbol
    | none => failAt t (.lacking .overloadable)
  | .identifier =>
    if (Conversion.ofWord? t.lexeme).isSome then pure t.lexeme
    else failAt t (.lacking .overloadable)
  | _ => failAt t (.lacking .overloadable)

def classMember : Walk ClassMember := do
  if ← acceptKeyword .fun then
    let decl ← function rules
    pure (.method decl)
  else if ← acceptKeyword .operator then
    let line := (← previous).line
    let name ← operatorName
    let decl ← functionRest rules name line
    pure (.operator decl)
  else
    let name ← identifier .member
    let _ ← symbol .equal .afterAttributeName
    let value ← rules.expression
    let _ ← symbol .semicolon .afterAttribute
    pure (.attr name.lexeme value)

/-- Members up to the closing brace, at most `fuel` of them. -/
def classMembers : Nat → Walk (List ClassMember)
  | 0 => stuck
  | fuel + 1 => do
    if ← check (.symbol .rightBrace) then pure []
    else if ← atEnd then pure []
    else
      let m ← classMember rules
      let more ← classMembers fuel
      pure (m :: more)

/-- The rest of a class or a struct behind its reserved word. -/
def classRest (keyword : Token) (isStruct : Bool) : Walk Statement := do
  let name ← identifier .className
  let base ←
    if ← acceptSymbol .leftParen then
      let e ← rules.expression
      let _ ← symbol .rightParen .afterBaseClass
      pure (some e)
    else pure none
  let _ ← symbol .leftBrace .beforeClassBody
  let members ← classMembers rules rules.passes
  let _ ← symbol .rightBrace .afterClassBody
  pure (.mk keyword.line (.classDecl name.lexeme base members isStruct))

/-- The dotted names behind the first one of a standard import, at most `fuel` of them. -/
def moduleParts : Nat → Walk (List String)
  | 0 => stuck
  | fuel + 1 => do
    if ← acceptSymbol .dot then
      let part ← identifier .moduleName
      let more ← moduleParts fuel
      pure (part.lexeme :: more)
    else pure []

/-- The dotted names of a standard import. -/
def standardPath : Walk ImportPath := do
  let first ← identifier .modulePath
  let more ← moduleParts rules.passes
  pure (.standard (first.lexeme :: more))

def importPath : Walk ImportPath := do
  if ← acceptAny [.string] then
    let t ← previous
    match t.literal with
    | some (.str path) => pure (.relative path)
    | _ => failAt t (.lacking .importPath)
  else standardPath rules

/-- The rest of an import behind its reserved word. -/
def importRest (keyword : Token) : Walk Statement := do
  let path ← importPath rules
  let newName ←
    if ← acceptKeyword .as then
      let name ← identifier .aliasName
      pure (some name.lexeme)
    else pure none
  let _ ← symbol .semicolon .afterImport
  pure (.mk keyword.line (.importModule path newName))

/-! ### Statements -/

/-- The `elif` branches of a conditional, at most `fuel` of them. -/
def elifBranches : Nat → Walk (List Branch)
  | 0 => stuck
  | fuel + 1 => do
    if ← acceptKeyword .elif then
      let condition ← rules.expression
      let _ ← symbol .leftBrace .afterElifCondition
      let body ← block rules
      let more ← elifBranches fuel
      pure (.mk condition body :: more)
    else pure []

/-- The rest of a conditional behind `if`. -/
def ifRest (line : UInt32) : Walk Statement := do
  let condition ← rules.expression
  let _ ← symbol .leftBrace .afterIfCondition
  let body ← block rules
  let more ← elifBranches rules rules.passes
  let otherwise ←
    if ← acceptKeyword .else then
      let _ ← symbol .leftBrace (.afterWord "else")
      let statements ← block rules
      pure (some statements)
    else pure none
  pure (.mk line (.ifElse (.mk condition body :: more) otherwise))

def loopBody : Walk (List Statement) := do
  let _ ← symbol .leftBrace .beforeLoopBody
  inLoop (block rules)

def whileRest (line : UInt32) : Walk Statement := do
  let condition ← rules.expression
  let body ← loopBody rules
  pure (.mk line (.whileDo condition body))

/-- The rest of a loop over a range. -/
def forRest (line : UInt32) : Walk Statement := do
  let name ← identifier .loopVariable
  let _ ← expect (.keyword .in) .missingIn
  let start ← rangeBound rules
  let _ ← symbol .dotDot .inRange
  let stop ← rangeBound rules
  let body ← loopBody rules
  pure (.mk line (.forRange name.lexeme start stop body))

/-- The rest of a loop without a condition. -/
def loopRest (line : UInt32) : Walk Statement := do
  let body ← loopBody rules
  pure (.mk line (.loop body))

/-- The handlers of a `try` block, at most `fuel` of them. -/
def catchClauses : Nat → Walk (List CatchClause)
  | 0 => stuck
  | fuel + 1 => do
    match ← accept (.keyword .catch) with
    | some keyword =>
      let _ ← symbol .leftParen (.afterWord "catch")
      let name ← identifier .errorVariable
      let _ ← symbol .colon .afterErrorVariable
      let errorType ← rules.expression
      let _ ← symbol .rightParen .afterErrorType
      let _ ← symbol .leftBrace .beforeCatchBody
      let body ← block rules
      let more ← catchClauses fuel
      pure (.mk name.lexeme errorType body keyword.line :: more)
    | none => pure []

def tryRest (line : UInt32) : Walk Statement := do
  let _ ← symbol .leftBrace (.afterWord "try")
  let body ← block rules
  let clauses ← catchClauses rules rules.passes
  if clauses.isEmpty then fail .tryWithoutCatch
  else pure (.mk line (.block body clauses))

def returnRest (keyword : Token) : Walk Statement := do
  if (← depths).functions = 0 then failAt keyword .returnAtTopLevel
  else
    let values ←
      if ← check (.symbol .semicolon) then pure [] else items rules.passes rules.expression
    let _ ← symbol .semicolon .afterReturnValue
    pure (.mk keyword.line (.returnValues values))

def breakRest (keyword : Token) : Walk Statement := do
  if (← depths).loops = 0 then failAt keyword .breakOutsideLoop
  else
    let _ ← symbol .semicolon (.afterWord "break")
    pure (.mk keyword.line .breakLoop)

def throwRest (line : UInt32) : Walk Statement := do
  let value ← rules.expression
  let _ ← symbol .semicolon .afterThrownValue
  pure (.mk line (.throwValue value))

/-- The rest of a block that is a statement, behind its opening brace. -/
def blockRest (line : UInt32) : Walk Statement := do
  let body ← block rules
  pure (.mk line (.block body []))

/-- An assignment or an expression that stands alone. -/
def expressionStatement : Walk Statement := do
  let first ← peek
  let exprs ← items rules.passes (expression rules)
  match ← accept (.symbol .equal) with
  | some equal =>
    match exprs.find? fun e => !e.isAssignable with
    | some target => failAt equal (.invalidTarget target.print)
    | none =>
      let values ← items rules.passes (expression rules)
      let _ ← symbol .semicolon .afterAssignment
      pure (.mk first.line (.assign exprs values))
  | none =>
    let _ ← symbol .semicolon .afterExpression
    pure (.mk first.line (.expression (tupleOrSingle exprs)))

/-- A statement that declares nothing. -/
def statement : Walk Statement := do
  if ← acceptKeyword .if then ifRest rules (← previous).line
  else if ← acceptKeyword .while then whileRest rules (← previous).line
  else if ← acceptKeyword .for then forRest rules (← previous).line
  else if ← acceptKeyword .loop then loopRest rules (← previous).line
  else if ← acceptKeyword .try then tryRest rules (← previous).line
  else if ← acceptKeyword .return then returnRest rules (← previous)
  else if ← acceptKeyword .break then breakRest (← previous)
  else if ← acceptKeyword .throw then throwRest rules (← previous).line
  else if ← acceptSymbol .leftBrace then blockRest rules (← previous).line
  else expressionStatement rules

/-- A function behind `fun`, as a statement. -/
def functionStatement : Walk Statement := do
  let decl ← function rules
  pure (.mk decl.line (.function decl))

/-- A statement or a declaration.  `fun` begins a declaration only before a name. -/
def declaration : Walk Statement := do
  if (← check (.keyword .fun)) && (← checkSecond .identifier) then
    let _ ← advance
    functionStatement rules
  else if ← acceptAny [.keyword .classDef, .keyword .struct] then
    let keyword ← previous
    classRest rules keyword (keyword.kind = .keyword .struct)
  else if ← acceptKeyword .import then importRest rules (← previous)
  else statement rules

/-! ### Knots -/

/-- The walks for texts that nest at most `n` deep and repeat a rule at most `passes` times. -/
def rulesAt (passes : Nat) : Nat → Rules
  | 0 => ⟨passes, stuck, stuck, stuck, stuck⟩
  | n + 1 =>
    let inner := rulesAt passes n
    { passes := passes
      expression := expression inner
      signed := signed inner passes
      typeExpr := postfixed inner
      declaration := declaration inner }

end Walk

/-! ### How a statement begins -/

namespace Grammar

variable {rules : Rules} {w : Surroundings} {t : Token} {ts : List Token}

theorem declaration_brace (h : t.kind = .symbol .leftBrace) : declaration rules w (t :: ts) =
    (do
      let body ← block rules w
      pure (Statement.mk t.line (.block body []))) ts := by
  simp only [declaration, h]

theorem declaration_function (h : t.kind = .keyword .fun)
    (hname : Parser.next ts = .identifier) :
    declaration rules w (t :: ts) = functionStatement rules ts := by
  simp only [declaration, h]
  exact if_pos hname

theorem declaration_keyword {k : Keyword} {p : Parser Statement} (h : t.kind = .keyword k)
    (hp : keywordRest? rules w k t = some p) : declaration rules w (t :: ts) = p ts := by
  have hfun : k ≠ .fun := fun heq => by
    subst heq
    cases hp
  simp [declaration, h, hp]

theorem declaration_expression (hbrace : t.kind ≠ .symbol .leftBrace)
    (hfun : t.kind = .keyword .fun → Parser.next ts ≠ .identifier)
    (hword : ∀ k, t.kind = .keyword k → keywordRest? rules w k t = none) :
    declaration rules w (t :: ts) = expressionStatement rules (t :: ts) := by
  simp only [declaration]
  split
  case h_1 hk => exact absurd hk hbrace
  case h_2 hk => exact if_neg (hfun hk)
  case h_3 k _ hk => simp only [hword k hk]
  case h_4 => rfl

end Grammar

/-! ### What the walks follow -/

namespace Track.FollowsRules

open Grammar (keywordRest?)

variable {T : Track} {d : Depths} {i m n : Nat} {rules : Grammar.Rules} {walks : Walk.Rules}

/-! ### Names -/

/-- At the end the reserved word is at fault, which is the token taken last. -/
theorem operatorName (hi : i + 1 < T.tokens.length)
    (hword : T.tokens[i].kind = .keyword .operator) :
    T.Agrees d (i + 1) false (Grammar.operatorName T.tokens[i] (T.tokens.drop (i + 1)))
      (Walk.operatorName T.tokens ⟨i + 1, d⟩) := by
  rw [T.drop_eq hi, Grammar.operatorName, Walk.operatorName]
  by_cases hend : T.tokens[i + 1].kind = .endOfInput
  · rw [Walk.bind_of_ok (advance_apply_end hi hend)]
    simp only [hend, Nat.add_sub_cancel, hword]
    rw [← T.drop_eq hi]
    exact .error (Nat.le_refl _) hi
  rw [Walk.bind_of_ok (advance_apply hi hend)]
  have hlt := T.succ_lt hi hend
  have hread : ∀ name : String, T.Agrees d (i + 1) false
      ((pure name : Parser String) (T.tokens.drop (i + 1 + 1)))
      ((pure name : Walk String) T.tokens ⟨i + 1 + 1, d⟩) := fun name =>
    .loose (Nat.le_succ _) hlt
  have hfault : T.Agrees d (i + 1) false
      ((Parser.failAt T.tokens[i + 1] (.lacking .overloadable) : Parser String)
        (T.tokens.drop (i + 1 + 1)))
      ((Walk.failAt T.tokens[i + 1] (.lacking .overloadable) : Walk String) T.tokens
        ⟨i + 1 + 1, d⟩) :=
    .error (Nat.le_succ _) hlt
  generalize T.tokens[i + 1].kind = k at hend
  cases k with
  | endOfInput => exact absurd rfl hend
  | identifier =>
      by_cases hnamed : (Conversion.ofWord? T.tokens[i + 1].lexeme).isSome
      · simp only [if_pos hnamed]
        exact hread _
      · simp only [if_neg hnamed]
        exact hfault
  | symbol s =>
      by_cases hbracket : s = .leftBracket
      · subst hbracket
        have hrest : T.Follows d (T.tokens.length - (i + 1 + 1)) false
            (do
              let _ ← Parser.symbol .rightBracket (.afterWord "[")
              if ← Parser.acceptSymbol .equal then pure "[]=" else pure "[]")
            (do
              let _ ← Walk.symbol .rightBracket (.afterWord "[")
              if ← Walk.acceptSymbol .equal then pure "[]=" else pure "[]") :=
          .andThen (.symbol _ _) fun _ => .acceptSymbolThen (fun _ _ => .pure _) (.pure _)
        exact (hrest _ hlt (by omega)).behind (Nat.lt_succ_self _)
      · cases s with
        | leftBracket => exact absurd rfl hbracket
        | _ => first | exact hread _ | exact hfault
  | _ => exact hfault

theorem moduleParts : ∀ {m fuel fuel' : Nat}, m ≤ fuel → m ≤ fuel' →
    T.Follows d m false (Grammar.moduleParts fuel) (Walk.moduleParts fuel')
  | 0, _, _, _, _ => .empty
  | m + 1, fuel + 1, fuel' + 1, hfuel, hfuel' => by
      unfold Grammar.moduleParts Walk.moduleParts
      refine .acceptSymbolThen (fun m' hm' => ?_) (.pure [])
      refine .behind (.identifier _) fun part m'' hm'' => ?_
      exact .andThen (moduleParts (by omega) (by omega)) fun more => .pure _

section rules
variable (h : T.FollowsRules n rules walks)
include h

/-! ### Declarations -/

theorem functionRest (name : String) (line : UInt32) :
    T.Follows d n true (Grammar.functionRest rules name line)
      (Walk.functionRest walks name line) := by
  unfold Grammar.functionRest Walk.functionRest
  refine .behind (.symbol _ _) fun _ m hm => ?_
  have h := h.mono (Nat.le_of_lt hm)
  refine .andThen h.parameters fun params => .andThen h.returnTypes fun returns => ?_
  refine .behind (.symbol _ _) fun _ m hm => ?_
  exact .andThen (h.functionBody.mono (Nat.le_of_lt hm)) fun body => .pure _

theorem function : T.Follows d n true (Grammar.function rules) (Walk.function walks) :=
  .behind (.identifier _) fun _ _ hm => ((h.functionRest _ _).mono (Nat.le_of_lt hm)).weaken

theorem classMember : T.Follows d n true (Grammar.classMember rules) (Walk.classMember walks) := by
  unfold Grammar.classMember Walk.classMember
  refine .acceptKeywordThen (fun m hm => ?_) fun i hi hn => ?_
  · exact .andThen (h.function.mono (Nat.le_of_lt hm)) fun decl => .pure _
  rw [if_neg Bool.false_ne_true, if_neg Bool.false_ne_true]
  refine .acceptKeyword hi (fun hword => ?_) fun hword => ?_
  · have hlt := T.succ_lt hi (by simp [hword])
    rw [Parser.bind_of_ok (accept_apply hi hword), if_pos rfl, Walk.bind_of_ok (previous_apply hi)]
    refine Agrees.behind (s := false) ((operatorName hlt hword).bind fun name j hle hj _ => ?_)
      (Nat.lt_succ_self i)
    exact Follows.andThen (h.functionRest name _) (fun decl => .pure _) j hj (by omega)
  · rw [Parser.bind_of_ok (accept_apply_of_ne hi hword)]
    refine Follows.behind (.identifier _) (fun name m hm => ?_) i hi hn
    refine .behind (.symbol _ _) fun _ m' hm' => ?_
    exact .andThen ((h.expression d).mono (by omega)) fun value => .closed _

theorem classMembers : ∀ {m fuel fuel' : Nat}, m ≤ n → m ≤ fuel → m ≤ fuel' →
    T.Follows d m false (Grammar.classMembers rules fuel) (Walk.classMembers walks fuel')
  | 0, _, _, _, _, _ => .empty
  | m + 1, fuel + 1, fuel' + 1, hm, hfuel, hfuel' => by
      unfold Grammar.classMembers Walk.classMembers
      refine .andThen (.check (by simp)) fun _ => .ite (.pure []) ?_
      refine .andThen .atEnd fun _ => .ite (.pure []) ?_
      refine .behind (h.classMember.mono hm) fun member m' hm' => ?_
      exact .andThen (classMembers (by omega) (by omega) (by omega)) fun more => .pure _

theorem classRest (keyword : Token) (isStruct : Bool) :
    T.Follows d n true (Grammar.classRest rules keyword isStruct)
      (Walk.classRest walks keyword isStruct) := by
  unfold Grammar.classRest Walk.classRest
  refine .behind (.identifier _) fun name m hm => ?_
  have h := h.mono (Nat.le_of_lt hm)
  have hbody : ∀ (base : Option Expr), T.Follows d m false
      (do
        let _ ← Parser.symbol .leftBrace .beforeClassBody
        let members ← Grammar.classMembers rules rules.passes
        let _ ← Parser.symbol .rightBrace .afterClassBody
        pure (Statement.mk keyword.line (.classDecl name.lexeme base members isStruct)))
      (do
        let _ ← Walk.symbol .leftBrace .beforeClassBody
        let members ← Walk.classMembers walks walks.passes
        let _ ← Walk.symbol .rightBrace .afterClassBody
        pure (Statement.mk keyword.line (.classDecl name.lexeme base members isStruct))) := by
    intro base
    refine .andThen (.symbol _ _) fun _ => ?_
    exact .andThen (h.classMembers (Nat.le_refl m) h.le_passes h.le_passes')
      fun members => .closed _
  refine .acceptSymbolThen (fun m' hm' => ?_) (hbody none)
  refine .andThen ((h.expression d).mono (Nat.le_of_lt hm')) fun e => ?_
  refine .behind (.symbol _ _) fun _ m'' hm'' => ?_
  exact (hbody (some e)).mono (by omega)

theorem standardPath :
    T.Follows d n false (Grammar.standardPath rules) (Walk.standardPath walks) := by
  refine .andThen (.identifier _) fun first => ?_
  exact .andThen (moduleParts h.le_passes h.le_passes') fun more => .pure _

theorem importPath : T.Follows d n false (Grammar.importPath rules) (Walk.importPath walks) := by
  intro i hi hn
  rw [T.drop_eq hi, Grammar.importPath, Walk.importPath]
  refine .acceptOne hi (by simp) (fun hstring => ?_) fun hstring => ?_
  · have hlt := T.succ_lt hi (by simp [hstring])
    rw [if_pos hstring, if_pos rfl, Walk.bind_of_ok (previous_apply hi)]
    cases T.tokens[i].literal with
    | none => exact .error (Nat.le_succ i) hlt
    | some literal =>
        cases literal with
        | str path => exact .loose (Nat.le_succ i) hlt
        | _ => exact .error (Nat.le_succ i) hlt
  · rw [if_neg hstring, ← T.drop_eq hi]
    exact h.standardPath i hi hn

theorem importRest (keyword : Token) :
    T.Follows d n true (Grammar.importRest rules keyword) (Walk.importRest walks keyword) := by
  unfold Grammar.importRest Walk.importRest
  refine .andThen h.importPath fun path => .acceptKeywordThen (fun m hm => ?_) (.closed _)
  exact .behind (.identifier _) fun name _ _ => .closed _

/-! ### Statements -/

theorem elifBranches : ∀ {m fuel fuel' : Nat}, m ≤ n → m ≤ fuel → m ≤ fuel' →
    T.Follows d m false (Grammar.elifBranches rules d.surroundings fuel)
      (Walk.elifBranches walks fuel')
  | 0, _, _, _, _, _ => .empty
  | m + 1, fuel + 1, fuel' + 1, hm, hfuel, hfuel' => by
      unfold Grammar.elifBranches Walk.elifBranches
      refine .acceptKeywordThen (fun m' hm' => ?_) (.pure [])
      refine .andThen ((h.expression d).mono (by omega)) fun condition => ?_
      refine .behind (.symbol _ _) fun _ m'' hm'' => ?_
      refine .andThen (h.block.mono (by omega)) fun body => ?_
      exact .andThen (elifBranches (by omega) (by omega) (by omega)) fun more => .pure _

theorem ifRest (line : UInt32) : T.Follows d n true (Grammar.ifRest rules d.surroundings line)
    (Walk.ifRest walks line) := by
  unfold Grammar.ifRest Walk.ifRest
  refine .andThen (h.expression d) fun condition => .behind (.symbol _ _) fun _ m hm => ?_
  have h := h.mono (Nat.le_of_lt hm)
  refine .andThen h.block fun body => ?_
  refine .andThen (h.elifBranches (Nat.le_refl m) h.le_passes h.le_passes') fun more => ?_
  refine .acceptKeywordThen (fun m' hm' => ?_) (.pure _)
  refine .behind (.symbol _ _) fun _ m'' hm'' => ?_
  exact .andThen (h.block.mono (by omega)) fun statements => .pure _

theorem loopBody : T.Follows d n true (Grammar.loopBody rules d.surroundings)
    (Walk.loopBody walks) := by
  refine .behind (.symbol _ _) fun _ m hm => ?_
  exact .inLoop (h.block.mono (Nat.le_of_lt hm)).weaken

theorem whileRest (line : UInt32) : T.Follows d n true (Grammar.whileRest rules d.surroundings line)
    (Walk.whileRest walks line) :=
  .andThen (h.expression d) fun _ => .behind h.loopBody fun _ _ _ => .pure _

theorem forRest (line : UInt32) : T.Follows d n true (Grammar.forRest rules d.surroundings line)
    (Walk.forRest walks line) := by
  unfold Grammar.forRest Walk.forRest
  refine .behind (.identifier _) fun name m hm => .behind (.expect (by simp) _) fun _ m' hm' => ?_
  have h := h.mono (Nat.le_of_lt (Nat.lt_trans hm' hm))
  have hbound : T.Follows d m' false _ _ := h.rangeBound.mono (Nat.le_succ m')
  refine .andThen hbound fun start => .behind (.symbol _ _) fun _ m'' hm'' => ?_
  refine .andThen (hbound.mono (Nat.le_of_lt hm'')) fun stop => ?_
  exact .andThen (h.loopBody.mono (Nat.le_of_lt hm'')) fun body => .pure _

theorem loopRest (line : UInt32) : T.Follows d n true
    (do
      let body ← Grammar.loopBody rules d.surroundings
      pure (.mk line (.loop body)))
    (Walk.loopRest walks line) :=
  .behind h.loopBody fun _ _ _ => .pure _

theorem catchClauses : ∀ {m fuel fuel' : Nat}, m ≤ n → m ≤ fuel → m ≤ fuel' →
    T.Follows d m false (Grammar.catchClauses rules d.surroundings fuel)
      (Walk.catchClauses walks fuel')
  | 0, _, _, _, _, _ => .empty
  | m + 1, fuel + 1, fuel' + 1, hm, hfuel, hfuel' => by
      unfold Grammar.catchClauses Walk.catchClauses
      refine .acceptThen (by simp) (fun keyword m' hm' => ?_) (.pure [])
      refine .behind (.symbol _ _) fun _ m₁ hm₁ => .behind (.identifier _) fun name m₂ hm₂ => ?_
      refine .behind (.symbol _ _) fun _ m₃ hm₃ => ?_
      refine .andThen ((h.expression d).mono (by omega)) fun errorType => ?_
      refine .behind (.symbol _ _) fun _ m₄ hm₄ => .behind (.symbol _ _) fun _ m₅ hm₅ => ?_
      refine .andThen (h.block.mono (by omega)) fun body => ?_
      exact .andThen (catchClauses (by omega) (by omega) (by omega)) fun more => .pure _

theorem tryRest (line : UInt32) : T.Follows d n true (Grammar.tryRest rules d.surroundings line)
    (Walk.tryRest walks line) := by
  unfold Grammar.tryRest Walk.tryRest
  refine .behind (.symbol _ _) fun _ m hm => ?_
  have h := h.mono (Nat.le_of_lt hm)
  refine .andThen h.block fun body => ?_
  refine .andThen (h.catchClauses (Nat.le_refl m) h.le_passes h.le_passes') fun clauses => ?_
  exact .ite (.fail _) (.pure _)

theorem returnRest (keyword : Token) : T.Follows d n true
    (Grammar.returnRest rules d.surroundings keyword) (Walk.returnRest walks keyword) := by
  intro i hi hn
  rw [Grammar.returnRest, Walk.returnRest, Walk.bind_of_ok (p := Walk.depths) rfl]
  by_cases houtside : d.functions = 0
  · rw [if_pos houtside, if_pos (by simpa [Depths.surroundings] using houtside)]
    exact Follows.failAt _ _ i hi hn
  rw [if_neg houtside, if_neg (by simpa [Depths.surroundings] using houtside)]
  refine Follows.andThen (.check (by simp)) (fun none => .ite (.closed _) ?_) i hi hn
  exact .andThen ((h.expression d).items h.le_passes h.le_passes')
    fun values => .closed _

omit h in
theorem breakRest (keyword : Token) : T.Follows d n true
    (Grammar.breakRest d.surroundings keyword) (Walk.breakRest keyword) := by
  intro i hi hn
  rw [Grammar.breakRest, Walk.breakRest, Walk.bind_of_ok (p := Walk.depths) rfl]
  by_cases houtside : d.loops = 0
  · rw [if_pos houtside, if_pos (by simpa [Depths.surroundings] using houtside)]
    exact Follows.failAt _ _ i hi hn
  · rw [if_neg houtside, if_neg (by simpa [Depths.surroundings] using houtside)]
    exact Follows.closed _ i hi hn

theorem throwRest (line : UInt32) :
    T.Follows d n true (Grammar.throwRest rules line) (Walk.throwRest walks line) :=
  .andThen (h.expression d) fun _ => .closed _

theorem blockRest (line : UInt32) : T.Follows d n true
    (do
      let body ← Grammar.block rules d.surroundings
      pure (.mk line (.block body [])))
    (Walk.blockRest walks line) :=
  .behind h.block fun _ _ _ => .pure _

theorem expressionStatement : T.Follows d (n + 1) true (Grammar.expressionStatement rules)
    (Walk.expressionStatement walks) := by
  unfold Grammar.expressionStatement Walk.expressionStatement
  have hexprs : T.Follows d (n + 1) false _ _ := h.next_expression.items h.passes h.passes'
  refine .andThen .peek fun first => .andThen hexprs fun exprs => ?_
  refine .acceptThen (by simp) (fun equal m hm => ?_) (.closed _)
  dsimp only
  cases exprs.find? fun e => !e.isAssignable with
  | some target => exact .failAt _ _
  | none => exact .andThen (hexprs.mono (Nat.le_of_lt hm)) fun values => .closed _

theorem functionStatement : T.Follows d n true (Grammar.functionStatement rules)
    (Walk.functionStatement walks) :=
  .behind h.function fun _ _ _ => .pure _

theorem next_declaration : T.Follows d (n + 1) true (Grammar.declaration rules d.surroundings)
    (Walk.declaration walks) := by
  intro i hi hn
  -- what a reserved word begins is read behind the word
  have hbegun : ∀ {k : Keyword} {p : Parser Statement} {q : Token → Walk Statement},
      T.tokens[i].kind = .keyword k → keywordRest? rules d.surroundings k T.tokens[i] = some p →
      T.Follows d n true p (q T.tokens[i]) →
      T.Agrees d i true (Grammar.declaration rules d.surroundings (T.tokens.drop i))
        ((Walk.previous >>= q) T.tokens ⟨i + 1, d⟩) := by
    intro k p q hk hp hq
    rw [T.drop_eq hi, Grammar.declaration_keyword hk hp, Walk.bind_of_ok (previous_apply hi)]
    exact hq.onward (Nat.le_refl _) hi hn (by simp [hk])
  rw [Walk.declaration, Walk.bind_of_ok (check_apply hi (by simp)),
    Walk.bind_of_ok (checkSecond_apply (by simp))]
  by_cases hfun : T.tokens[i].kind = .keyword .fun ∧
      Parser.next (T.tokens.drop (i + 1)) = .identifier
  · have hend : T.tokens[i].kind ≠ .endOfInput := by simp [hfun.1]
    rw [if_pos (by simpa using hfun), T.drop_eq hi, Grammar.declaration_function hfun.1 hfun.2,
      Walk.bind_of_ok (advance_apply hi hend)]
    exact h.functionStatement.onward (Nat.le_refl _) hi hn hend
  rw [if_neg (by simpa using hfun)]
  refine .acceptAny hi (by decide) (fun hclass => ?_) fun hclass => ?_
  · have hrest : ∀ isStruct, decide (T.tokens[i].kind = .keyword .struct) = isStruct →
        T.Follows d n true (Grammar.classRest rules T.tokens[i] isStruct)
          (Walk.classRest walks T.tokens[i] (T.tokens[i].kind = .keyword .struct)) := by
      intro isStruct heq
      rw [heq]
      exact h.classRest _ isStruct
    have hword : T.tokens[i].kind = .keyword .classDef ∨ T.tokens[i].kind = .keyword .struct := by
      simpa using hclass
    rcases hword with hk | hk
    · exact hbegun hk rfl (hrest false (by rw [hk]; rfl))
    · exact hbegun hk rfl (hrest true (by rw [hk]; rfl))
  refine .acceptKeyword hi (fun hk => hbegun hk rfl (h.importRest _)) fun himport => ?_
  refine .acceptKeyword hi (fun hk => hbegun hk rfl (h.ifRest _)) fun hif => ?_
  refine .acceptKeyword hi (fun hk => hbegun hk rfl (h.whileRest _)) fun hwhile => ?_
  refine .acceptKeyword hi (fun hk => hbegun hk rfl (h.forRest _)) fun hfor => ?_
  refine .acceptKeyword hi (fun hk => hbegun hk rfl (h.loopRest _)) fun hloop => ?_
  refine .acceptKeyword hi (fun hk => hbegun hk rfl (h.tryRest _)) fun htry => ?_
  refine .acceptKeyword hi (fun hk => hbegun hk rfl (h.returnRest _)) fun hreturn => ?_
  refine .acceptKeyword hi (fun hk => hbegun hk rfl (breakRest _)) fun hbreak => ?_
  refine .acceptKeyword hi (fun hk => hbegun hk rfl (h.throwRest _)) fun hthrow => ?_
  refine .acceptSymbol hi (fun hbrace => ?_) fun hbrace => ?_
  · rw [if_pos rfl, Walk.bind_of_ok (previous_apply hi), T.drop_eq hi,
      Grammar.declaration_brace hbrace]
    exact (h.blockRest _).onward (Nat.le_refl _) hi hn (by simp [hbrace])
  have hword : ∀ k, T.tokens[i].kind = .keyword k →
      keywordRest? rules d.surroundings k T.tokens[i] = none := by
    intro k hk
    rw [hk] at hclass himport hif hwhile hfor hloop htry hreturn hbreak hthrow
    cases k <;> first | rfl | exact absurd rfl (by assumption) | exact absurd (by simp) hclass
  rw [T.drop_eq hi, Grammar.declaration_expression hbrace (fun hk hname => hfun ⟨hk, hname⟩) hword,
    ← T.drop_eq hi]
  exact h.expressionStatement i hi hn

theorem next {passes passes' : Nat} (hpasses : n + 1 < passes) (hpasses' : n + 1 < passes') :
    T.FollowsRules (n + 1)
      { passes := passes
        expression := Grammar.expression rules
        signed := Grammar.signed rules
        typeExpr := Grammar.postfixed rules
        declaration := Grammar.declaration rules }
      { passes := passes'
        expression := Walk.expression walks
        signed := Walk.signed walks passes'
        typeExpr := Walk.postfixed walks
        declaration := Walk.declaration walks } where
  passes := hpasses
  passes' := hpasses'
  expression _ := h.next_expression
  signed _ := h.signs (Nat.le_refl _) (Nat.le_of_lt hpasses')
  typeExpr _ := h.postfixed
  declaration _ := h.next_declaration

end rules

/-- Passes and nesting enough for `n` tokens are enough to follow the parsers. -/
theorem rulesAt {passes passes' : Nat} : ∀ {n k k' : Nat}, n < passes → n < passes' → n ≤ k →
    n ≤ k' → T.FollowsRules n (Grammar.rulesAt passes k) (Walk.rulesAt passes' k')
  | 0, k, k', hpasses, hpasses', _, _ =>
      { passes := by cases k <;> exact hpasses
        passes' := by cases k' <;> exact hpasses'
        expression := fun _ => .empty
        signed := fun _ => .empty
        typeExpr := fun _ => .empty
        declaration := fun _ => .empty }
  | n + 1, k + 1, k' + 1, hpasses, hpasses', hk, hk' =>
      (rulesAt (by omega) (by omega) (by omega) (by omega)).next hpasses hpasses'

end Track.FollowsRules

end Classlet
