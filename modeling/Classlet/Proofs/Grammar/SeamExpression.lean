import Classlet.Proofs.Grammar.Operators
import Classlet.Proofs.Grammar.Seam
import Classlet.Proofs.Syntax.Moved

/-! # Texts joined by a newline, parsed

Each rule of the grammar reads off a joined text what it reads off the text alone, moved down by the
lines of the seam.  Expressions may be cut off by what stands behind; statements end in a token of
their own, and none of those that go on with one begins another. -/

namespace Classlet.Grammar

open Classlet.Parser

/-- The rules that the rules refer back to read the same at a seam, on up to `n` tokens. -/
structure CarriesRules (c : Seam) (n : Nat) (rules rules' : Rules) : Prop where
  passes : n < rules.passes
  passes' : n < rules'.passes
  expression : c.Carries n .loose (Expr.moved c.lines) rules.expression rules'.expression
  signed : c.Carries n .loose (Expr.moved c.lines) rules.signed rules'.signed
  typeExpr : c.Carries n .loose (Expr.moved c.lines) rules.typeExpr rules'.typeExpr
  declaration : ∀ w,
    c.Carries n .closing (Statement.moved c.lines) (rules.declaration w) (rules'.declaration w)

variable {c : Seam} {n m : Nat} {rules rules' : Rules}

theorem CarriesRules.mono (h : CarriesRules c n rules rules') (hm : m ≤ n) :
    CarriesRules c m rules rules' where
  passes := Nat.lt_of_le_of_lt hm h.passes
  passes' := Nat.lt_of_le_of_lt hm h.passes'
  expression := h.expression.mono hm
  signed := h.signed.mono hm
  typeExpr := h.typeExpr.mono hm
  declaration w := (h.declaration w).mono hm

theorem CarriesRules.fewer (h : CarriesRules c n rules rules') (hm : m < n) :
    CarriesRules c m rules rules' := h.mono (Nat.le_of_lt hm)

theorem next_behind_ne {k : TokenKind} (hk : k ∈ seamContinuations) : next c.behind ≠ k :=
  fun h => c.fresh (h ▸ hk)

section rules
variable (h : CarriesRules c n rules rules')
include h

/-! ### Calls, indices and slices -/

theorem carries_argument (count : Nat) (keywords : List KeywordArg) :
    c.Carries n .loose (Sum.map (Expr.moved c.lines) (KeywordArg.moved c.lines))
      (argument rules count keywords)
      (argument rules' count (keywords.map (KeywordArg.moved c.lines))) := by
  unfold argument
  split
  · exact .fail _
  refine .bind (.check _) fun isName => ?_
  refine .bind (.checkSecond nofun (next_behind_ne (by decide))) fun isEqual => ?_
  refine .ite (fun _ => ?_) fun _ => ?_
  · refine .bind (Seam.Carries.identifier _).firm.loose fun name => ?_
    refine .bind (Seam.Carries.accepted nofun) fun _ => ?_
    have hnames : (keywords.map (KeywordArg.moved c.lines)).any (fun k => k.name == name.lexeme) =
        keywords.any fun k => k.name == name.lexeme := by
      rw [List.any_map]
      simp [Function.comp_def, KeywordArg.name_moved]
    rw [Token.lexeme_moved, hnames]
    refine .ite (fun _ => .failAt _ _) fun _ => .bind h.expression fun value => ?_
    exact (Seam.Carries.pure (by simp)).loose
  · rw [List.isEmpty_map]
    refine .ite (fun _ => .fail _) fun _ => .bind h.expression fun value => ?_
    exact (Seam.Carries.pure rfl).loose

theorem carries_arguments : ∀ {m fuel fuel' : Nat}, m ≤ n → m < fuel → m < fuel' →
    ∀ positional keywords, c.Carries m .loose
      (Prod.map (List.map (Expr.moved c.lines)) (List.map (KeywordArg.moved c.lines)))
      (arguments rules fuel positional keywords)
      (arguments rules' fuel' (positional.map (Expr.moved c.lines))
        (keywords.map (KeywordArg.moved c.lines)))
  | m, fuel + 1, fuel' + 1, hm, hfuel, hfuel', positional, keywords => by
      unfold arguments
      rw [List.length_map, List.length_map]
      refine .bind (carries_argument (h.mono hm) _ _) fun a => ?_
      have hmore : ∀ positional keywords, c.Carries m .loose
          (Prod.map (List.map (Expr.moved c.lines)) (List.map (KeywordArg.moved c.lines)))
          (acceptSymbol .comma >>= fun comma =>
            if comma then arguments rules fuel positional keywords else pure (positional, keywords))
          (acceptSymbol .comma >>= fun comma =>
            if comma then arguments rules' fuel' (positional.map (Expr.moved c.lines))
              (keywords.map (KeywordArg.moved c.lines))
            else pure (positional.map (Expr.moved c.lines),
              keywords.map (KeywordArg.moved c.lines))) := fun positional keywords =>
        .acceptSymbolThen (by simp)
          (fun m' hm' => carries_arguments (m := m') (by omega) (by omega) (by omega) _ _)
          (Seam.Carries.pure rfl).loose
      cases a with
      | inl value =>
          have hmoved := hmore (positional ++ [value]) keywords
          rw [List.map_append] at hmoved
          exact hmoved
      | inr keyword =>
          have hmoved := hmore positional (keywords ++ [keyword])
          rw [List.map_append] at hmoved
          exact hmoved

theorem carries_callRest (callee : Expr) :
    c.Carries n .closing (Expr.moved c.lines) (callRest rules callee)
      (callRest rules' (callee.moved c.lines)) := by
  have hclose : ∀ positional keywords, c.Carries n .closing (Expr.moved c.lines)
      (symbol .rightParen .afterArguments >>= fun _ => pure (.call callee positional keywords))
      (symbol .rightParen .afterArguments >>= fun _ => pure (.call (callee.moved c.lines)
        (positional.map (Expr.moved c.lines)) (keywords.map (KeywordArg.moved c.lines)))) :=
    fun _ _ => .closed (by simp)
  refine .thenClosing (.check _) fun closes => .ite (fun _ => hclose [] []) fun _ => ?_
  exact .thenClosing (carries_arguments h (Nat.le_refl n) h.passes h.passes' [] [])
    fun args => hclose args.1 args.2

theorem carries_sliceRest (object : Expr) (start : Option Expr) :
    c.Carries n .closing (Expr.moved c.lines) (indexRest.sliceRest rules object start)
      (indexRest.sliceRest rules' (object.moved c.lines) (start.map (Expr.moved c.lines))) := by
  have hclose : ∀ stop : Option Expr, c.Carries n .closing (Expr.moved c.lines)
      (symbol .rightBracket .afterSlice >>= fun _ => pure (.slice object start stop))
      (symbol .rightBracket .afterSlice >>= fun _ => pure (.slice (object.moved c.lines)
        (start.map (Expr.moved c.lines)) (stop.map (Expr.moved c.lines)))) :=
    fun _ => .closed (by simp [movedBound_eq_map])
  refine .thenClosing (.check _) fun closes => .ite (fun _ => hclose none) fun _ => ?_
  exact .thenClosing h.expression fun e => hclose (some e)

theorem carries_indexRest (object : Expr) :
    c.Carries n .closing (Expr.moved c.lines) (indexRest rules object)
      (indexRest rules' (object.moved c.lines)) := by
  refine .acceptSymbolThen nofun (fun m hm => ?_) ?_
  · exact (carries_sliceRest (h.fewer hm) object none).firm
  · refine .thenClosing h.expression fun first => .acceptSymbolThen nofun (fun m hm => ?_) ?_
    · exact (carries_sliceRest (h.fewer hm) object (some first)).firm
    · exact .closed (by simp)

theorem carries_postfixes : ∀ {m fuel fuel' : Nat}, m ≤ n → m < fuel → m < fuel' → ∀ e,
    c.Carries m .loose (Expr.moved c.lines) (postfixes rules fuel e)
      (postfixes rules' fuel' (e.moved c.lines))
  | m, fuel + 1, fuel' + 1, hm, hfuel, hfuel', e => by
      have hmore : ∀ m' < m, ∀ e, c.Carries m' .loose (Expr.moved c.lines)
          (postfixes rules fuel e) (postfixes rules' fuel' (e.moved c.lines)) :=
        fun m' hm' e => carries_postfixes (by omega) (by omega) (by omega) e
      refine .acceptSymbolThen nofun (fun m' hm' => ?_) <|
        .acceptSymbolThen nofun (fun m' hm' => ?_) <|
          .acceptSymbolThen nofun (fun m' hm' => ?_) (Seam.Carries.pure rfl).loose
      · exact .bind (carries_callRest (h.mono (by omega)) e).firm.loose fun e' => hmore m' hm' e'
      · exact .bind (carries_indexRest (h.mono (by omega)) e).firm.loose fun e' => hmore m' hm' e'
      · refine .bind (Seam.Carries.identifier _).firm.loose fun name => ?_
        have hattr := hmore m' hm' (.attr e name.lexeme)
        rw [Expr.moved] at hattr
        exact hattr

/-! ### Primaries -/

theorem carries_parenRest :
    c.Carries n .closing (Expr.moved c.lines) (parenRest rules) (parenRest rules') := by
  refine .acceptSymbolThen nofun (fun m hm => Seam.Carries.pure (by simp)) ?_
  refine .thenClosing h.expression fun first => .acceptSymbolThen nofun (fun m hm => ?_) ?_
  · have h' := h.fewer hm
    refine Seam.Carries.firm <|
      .thenClosing (h'.expression.itemsUntil (Nat.le_refl m) h'.passes h'.passes') fun more => ?_
    exact .closed (by simp)
  · exact .closed rfl

theorem carries_listRest :
    c.Carries n .closing (Expr.moved c.lines) (listRest rules) (listRest rules') :=
  .thenClosing (h.expression.itemsUntil (Nat.le_refl n) h.passes h.passes')
    fun elements => .closed (by simp)

theorem carries_parameter :
    c.Carries n .loose (Param.moved c.lines) (parameter rules) (parameter rules') := by
  have hname : ∀ variadic, ∀ m ≤ n, c.Carries m .loose (Param.moved c.lines)
      (identifier .parameterName >>= fun name => acceptSymbol .colon >>= fun colon =>
        if colon then rules.typeExpr >>= fun e => pure (.mk name.lexeme (some e) variadic)
        else pure (.mk name.lexeme none variadic))
      (identifier .parameterName >>= fun name => acceptSymbol .colon >>= fun colon =>
        if colon then rules'.typeExpr >>= fun e => pure (.mk name.lexeme (some e) variadic)
        else pure (.mk name.lexeme none variadic)) := fun variadic m hm => by
    refine .bind (Seam.Carries.identifier _).firm.loose fun name => ?_
    refine .acceptSymbolThen nofun (fun m' hm' => ?_) ?_
    · exact .bind (h.typeExpr.mono (by omega)) fun e =>
        (Seam.Carries.pure (by simp [movedBound])).loose
    · exact (Seam.Carries.pure (by simp [movedBound])).loose
  exact .acceptSymbolThen nofun (fun m hm => hname true m (Nat.le_of_lt hm))
    (hname false n (Nat.le_refl n))

theorem carries_parametersFrom : ∀ {m fuel fuel' : Nat}, m ≤ n → m < fuel → m < fuel' → ∀ count,
    c.Carries m .loose (List.map (Param.moved c.lines)) (parametersFrom rules fuel count)
      (parametersFrom rules' fuel' count)
  | m, fuel + 1, fuel' + 1, hm, hfuel, hfuel', count => by
      unfold parametersFrom
      split
      · exact .fail _
      refine .bind (carries_parameter (h.mono hm)) fun p => ?_
      refine .acceptSymbolThen nofun (fun m' hm' => ?_) (Seam.Carries.pure rfl).loose
      exact .bind (carries_parametersFrom (by omega) (by omega) (by omega) _)
        fun more => (Seam.Carries.pure rfl).loose

theorem carries_parameters : c.Carries n .closing (List.map (Param.moved c.lines))
    (parameters rules) (parameters rules') := by
  refine .thenClosing (.check _) fun closes => .ite (fun _ => .closed rfl) fun _ => ?_
  exact .thenClosing (carries_parametersFrom h (Nat.le_refl n) h.passes h.passes' 0)
    fun params => .closed rfl

theorem carries_returnTypes : c.Carries n .loose (List.map (Expr.moved c.lines))
    (returnTypes rules) (returnTypes rules') := by
  refine .acceptSymbolThen nofun (fun m hm => ?_) (Seam.Carries.pure rfl).loose
  have h' := h.fewer hm
  refine .acceptSymbolThen nofun (fun m' hm' => ?_) ?_
  · have h'' := h'.fewer hm'
    exact .bind (h''.typeExpr.items h''.passes h''.passes') fun types =>
      (Seam.Carries.closed rfl).firm.loose
  · exact .bind h'.typeExpr fun t => (Seam.Carries.pure rfl).loose

theorem carries_statementsUntilBrace (w : Surroundings) : ∀ {m fuel fuel' : Nat},
    m ≤ n → m < fuel → m < fuel' → c.Carries m .loose (List.map (Statement.moved c.lines))
      (statementsUntilBrace (rules.declaration w) fuel)
      (statementsUntilBrace (rules'.declaration w) fuel')
  | m, fuel + 1, fuel' + 1, hm, hfuel, hfuel' => by
      refine .bind (.check _) fun closes =>
        .ite (fun _ => (Seam.Carries.pure rfl).loose) fun _ => ?_
      refine .bind (.check _) fun ends => .ite (fun _ => (Seam.Carries.pure rfl).loose) fun _ => ?_
      refine .takingThen ((h.declaration w).mono hm) fun s m' hm' => ?_
      exact .bind (carries_statementsUntilBrace w (by omega) (by omega) (by omega))
        fun more => (Seam.Carries.pure rfl).loose

theorem carries_block (w : Surroundings) : c.Carries n .closing
    (List.map (Statement.moved c.lines)) (block rules w) (block rules' w) :=
  .thenClosing (carries_statementsUntilBrace h w (Nat.le_refl n) h.passes h.passes')
    fun _ => .closed rfl

theorem carries_lambdaRest (line : UInt32) : c.Carries n .loose (Expr.moved c.lines)
    (lambdaRest rules line) (lambdaRest rules' (line + c.lines)) := by
  refine .bind (Seam.Carries.symbol _ _).firm.loose fun _ => ?_
  refine .bind (carries_parameters h).firm.loose fun params => ?_
  refine .bind (carries_returnTypes h) fun returns => ?_
  refine .acceptSymbolThen nofun (fun m hm => ?_) ?_
  · refine .bind .peek fun first => .bind (h.fewer hm).expression fun value => ?_
    exact (Seam.Carries.pure (by simp)).loose
  · refine .bind (Seam.Carries.symbol _ _).firm.loose fun _ => ?_
    refine .bind (carries_block h _).firm.loose fun body => ?_
    exact (Seam.Carries.pure (by simp)).loose

theorem carries_primary :
    c.Carries n .loose (Expr.moved c.lines) (primary rules) (primary rules') := by
  rintro (_ | ⟨t, us⟩) hus
  · refine .atEnd fun a rest hrun => ?_
    simp [primary, c.mark_kind, isLiteralKind, fail_eq_ok] at hrun
  have h' : CarriesRules c us.length rules rules' := h.fewer hus
  by_cases hliteral : isLiteralKind t.kind = true
  · cases hvalue : t.literal with
    | some value =>
        have hpure : c.Agree us .loose (Expr.moved c.lines) (pure (.literal value))
            (pure (.literal value)) := (Seam.Carries.pure (by simp)).loose us (Nat.le_refl _)
        exact hpure.cons (by simp [primary, hliteral, hvalue]) (by simp [primary, hliteral, hvalue])
    | none =>
        intro a rest hrun
        simp [primary, hliteral, hvalue, failAt_eq_ok] at hrun
  by_cases hname : t.kind = .identifier
  · have hpure : c.Agree us .loose (Expr.moved c.lines) (pure (.var t.lexeme))
        (pure (.var t.lexeme)) := (Seam.Carries.pure (by simp)).loose us (Nat.le_refl _)
    exact hpure.cons (by simp [primary, hname, isLiteralKind])
      (by simp [primary, hname, isLiteralKind])
  by_cases hparen : t.kind = .symbol .leftParen
  · exact ((carries_parenRest h').firm.loose us (Nat.le_refl _)).cons
      (by simp [primary, hparen, isLiteralKind]) (by simp [primary, hparen, isLiteralKind])
  by_cases hbracket : t.kind = .symbol .leftBracket
  · exact ((carries_listRest h').firm.loose us (Nat.le_refl _)).cons
      (by simp [primary, hbracket, isLiteralKind]) (by simp [primary, hbracket, isLiteralKind])
  by_cases hfun : t.kind = .keyword .fun
  · exact (carries_lambdaRest h' t.line us (Nat.le_refl _)).cons
      (by simp [primary, hfun, isLiteralKind]) (by simp [primary, hfun, isLiteralKind])
  · intro a rest hrun
    simp [primary, *, fail_eq_ok] at hrun

theorem carries_postfixed :
    c.Carries n .loose (Expr.moved c.lines) (postfixed rules) (postfixed rules') :=
  .bind (carries_primary h) fun e => carries_postfixes h (Nat.le_refl n) h.passes h.passes' e

/-! ### Operators -/

theorem carries_power : c.Carries n .loose (Expr.moved c.lines) (power rules) (power rules') := by
  refine .bind (carries_postfixed h) fun base => .acceptSymbolThen nofun (fun m hm => ?_) ?_
  · exact .bind (h.fewer hm).signed fun exponent => (Seam.Carries.pure (by simp)).loose
  · exact (Seam.Carries.pure rfl).loose

theorem carries_signed :
    c.Carries n .loose (Expr.moved c.lines) (signed rules) (signed rules') := by
  intro us hus
  induction us with
  | nil => exact (carries_power h [] hus).congrEnd nofun (by rw [signed, c.mark_kind]; rfl)
  | cons t us ih =>
      cases hsign : sign? t.kind with
      | none =>
          exact (carries_power h (t :: us) hus).congr (by simp [signed, hsign])
            (by simp [signed, hsign])
      | some op =>
          have hoperand := ih (Nat.le_of_succ_le hus)
          have hmap : c.Agree us .loose (Expr.moved c.lines)
              (signed rules >>= fun e => pure (.unary op e))
              (signed rules' >>= fun e => pure (.unary op e)) := hoperand.map fun e => by simp
          exact hmap.cons (signed_cons hsign _) (signed_cons (t := t.moved c.lines) hsign _)

theorem carries_binary (levels : List (List BinaryOp)) :
    c.Carries n .loose (Expr.moved c.lines) (binary rules levels) (binary rules' levels) := by
  induction levels with
  | nil => exact carries_signed h
  | cons operators tighter ih =>
      refine ih.chained rfl (fun k join hjoin x y => ?_) h.passes h.passes'
      unfold binaryOn at hjoin
      split at hjoin
      case h_1 =>
        split at hjoin
        case h_1 =>
          split at hjoin <;> cases hjoin
          rw [Expr.moved]
        case h_2 => cases hjoin
      case h_2 => cases hjoin

theorem carries_negation :
    c.Carries n .loose (Expr.moved c.lines) (negation rules) (negation rules') := by
  intro us hus
  induction us with
  | nil =>
      have hmark : ¬ c.mark.kind = .keyword .not := by simp [c.mark_kind]
      exact (carries_binary h binaryLevels [] hus).congrEnd nofun (by rw [negation, if_neg hmark])
  | cons t us ih =>
      by_cases hnot : t.kind = .keyword .not
      · have hoperand := ih (Nat.le_of_succ_le hus)
        have hmap : c.Agree us .loose (Expr.moved c.lines)
            (negation rules >>= fun e => pure (.not e))
            (negation rules' >>= fun e => pure (.not e)) := hoperand.map fun e => by simp
        exact hmap.cons (negation_cons hnot _) (negation_cons (t := t.moved c.lines) hnot _)
      · exact (carries_binary h binaryLevels (t :: us) hus).congr (by simp [negation, hnot])
          (by simp [negation, hnot])

theorem carries_logical {word : Keyword} {op : Connective} {operand operand' : Parser Expr}
    (hop : c.Carries n .loose (Expr.moved c.lines) operand operand') :
    c.Carries n .loose (Expr.moved c.lines) (chained rules.passes (logicalOn word op) operand)
      (chained rules'.passes (logicalOn word op) operand') := by
  refine hop.chained rfl (fun k join hjoin x y => ?_) h.passes h.passes'
  unfold logicalOn at hjoin
  split at hjoin <;> cases hjoin
  rw [Expr.moved]

theorem carries_expression : c.Carries n .loose (Expr.moved c.lines)
    (Grammar.expression rules) (Grammar.expression rules') :=
  carries_logical h (carries_logical h (carries_negation h))

theorem carries_rangeBound :
    c.Carries n .loose (Expr.moved c.lines) (rangeBound rules) (rangeBound rules') :=
  carries_binary h boundLevels

end rules

end Classlet.Grammar
