import Classlet.Proofs.Grammar.SeamExpression
import Classlet.Proofs.Grammar.ExpressionStatement
import Classlet.Proofs.Grammar.Refusal

/-! # Statements at a seam

Every statement ends in a token of its own, so that it is read the same whatever stands behind the
seam (`carries_declaration`).  Only conditionals and `try` look further, for a token with which no
statement begins (`next_of_parses`).  The statements of a joined text are those of its two texts,
the second ones on later lines (`parse_newline`). -/

namespace Classlet.Grammar

open Classlet.Parser

variable {c : Seam} {n m : Nat} {rules rules' : Rules} {w : Surroundings}

/-! ### What begins no statement -/

section refusals
variable {t : Token} {ts : List Token}

/-- What no primary begins with, no statement of expressions begins with. -/
theorem expressionStatement_refuses (hsign : sign? t.kind = none) (hnot : t.kind ≠ .keyword .not)
    (h : Refuses (primary rules) (t :: ts)) : Refuses (expressionStatement rules) (t :: ts) := by
  have hexpression : Refuses (Grammar.expression rules) (t :: ts) :=
    expression_refuses hsign hnot h
  have hitems : Refuses (items rules.passes (Grammar.expression rules)) (t :: ts) :=
    hexpression.bind
  intro a rest hrun
  exact hitems.bind a rest hrun

theorem declaration_refuses (ht : t.kind ∈ seamContinuations) :
    Refuses (declaration rules w) (t :: ts) := by
  have hprimary : Refuses (primary rules) (t :: ts) := by
    intro a rest hrun
    simp only [seamContinuations, List.mem_cons, List.not_mem_nil, or_false] at ht
    rcases ht with ht | ht | ht | ht <;> simp [primary, ht, isLiteralKind, fail_eq_ok] at hrun
  intro a rest hrun
  have hstatement : expressionStatement rules (t :: ts) = .ok (a, rest) := by
    simp only [seamContinuations, List.mem_cons, List.not_mem_nil, or_false] at ht
    rcases ht with ht | ht | ht | ht <;> simpa [declaration, ht, keywordRest?] using hrun
  refine expressionStatement_refuses ?_ ?_ hprimary a rest hstatement
  · simp only [seamContinuations, List.mem_cons, List.not_mem_nil, or_false] at ht
    rcases ht with ht | ht | ht | ht <;> rw [ht] <;> rfl
  · intro hnot
    rw [hnot] at ht
    revert ht
    decide

end refusals

/-! ### Names -/

theorem carries_operatorName (keyword : Token) :
    c.Carries n .loose id (operatorName keyword) (operatorName (keyword.moved c.lines)) := by
  rintro (_ | ⟨t, us⟩) hus
  · refine .atEnd fun a rest hrun => ?_
    simp [operatorName, c.mark_kind, failAt_eq_ok] at hrun
  · by_cases hbracket : t.kind = .symbol .leftBracket
    · have hindex : c.Carries us.length .loose id
          (symbol .rightBracket (.afterWord "[") >>= fun _ => acceptSymbol .equal >>= fun equal =>
            if equal then pure "[]=" else pure "[]")
          (symbol .rightBracket (.afterWord "[") >>= fun _ => acceptSymbol .equal >>= fun equal =>
            if equal then pure "[]=" else pure "[]") := by
        refine .bind (Seam.Carries.symbol _ _).firm.loose fun _ => ?_
        exact .acceptSymbolThen (fun h => by cases h) (fun _ _ => (Seam.Carries.pure rfl).loose)
          (Seam.Carries.pure rfl).loose
      exact (hindex us (Nat.le_refl _)).cons (by simp only [operatorName, hbracket])
        (by simp only [operatorName, Token.kind_moved, hbracket])
    · intro name rest hrun
      simp only [Seam.alone_cons, operatorName] at hrun
      have hone : rest = c.alone us ∧
          operatorName (keyword.moved c.lines) (c.joined (t :: us)) = .ok (name, c.joined us) := by
        simp only [Seam.joined_cons, operatorName, Token.kind_moved, Token.lexeme_moved]
        split at hrun
        case h_1 => cases hrun
        case h_2 hk => exact absurd hk hbracket
        case h_3 hk =>
          cases hrun
          exact ⟨rfl, rfl⟩
        case h_4 s hk hne htilde =>
          cases hop : BinaryOp.ofToken? s with
          | none =>
              rw [hop] at hrun
              cases hrun
          | some op =>
              rw [hop] at hrun
              cases hrun
              exact ⟨rfl, rfl⟩
        case h_5 hk =>
          split at hrun
          case isTrue hword =>
            cases hrun
            exact ⟨rfl, if_pos hword⟩
          case isFalse => cases hrun
        case h_6 => cases hrun
      exact ⟨us, List.suffix_cons t us, hone.1, (fun h => by cases h), fun _ => hone.2⟩

theorem carries_moduleParts : ∀ {m fuel fuel' : Nat}, m ≤ n → m < fuel → m < fuel' →
    c.Carries m .loose id (moduleParts fuel) (moduleParts fuel')
  | m, fuel + 1, fuel' + 1, hm, hfuel, hfuel' => by
      refine .acceptSymbolThen nofun (fun m' hm' => ?_) (Seam.Carries.pure rfl).loose
      refine .bind (Seam.Carries.identifier _).firm.loose fun part => ?_
      exact .bind (carries_moduleParts (by omega) (by omega) (by omega))
        fun more => (Seam.Carries.pure rfl).loose

/-! ### Declarations -/

section rules
variable (h : CarriesRules c n rules rules')
include h

theorem carries_functionRest (name : String) (line : UInt32) :
    c.Carries n .closing (FunctionDecl.moved c.lines) (functionRest rules name line)
      (functionRest rules' name (line + c.lines)) := by
  refine .thenClosing (Seam.Carries.symbol _ _) fun _ => ?_
  refine .thenClosing (carries_parameters h) fun params => ?_
  refine .thenClosing (carries_returnTypes h) fun returns => ?_
  refine .thenClosing (Seam.Carries.symbol _ _) fun _ => ?_
  exact .closingThen (carries_block h _) fun body => Seam.Carries.pure (by simp)

theorem carries_function :
    c.Carries n .closing (FunctionDecl.moved c.lines) (function rules) (function rules') :=
  .thenClosing (Seam.Carries.identifier _) fun name =>
    carries_functionRest h name.lexeme name.line

theorem carries_classMember :
    c.Carries n .closing (ClassMember.moved c.lines) (classMember rules) (classMember rules') := by
  refine .acceptKeywordThen nofun (fun m hm => ?_) ?_
  · refine Seam.Carries.firm (.closingThen (carries_function (h.fewer hm)) fun decl => ?_)
    exact Seam.Carries.pure (by simp)
  · refine .acceptThen nofun nofun (fun keyword m hm => ?_) ?_
    · refine Seam.Carries.firm (.thenClosing (carries_operatorName keyword) fun name => ?_)
      exact .closingThen (carries_functionRest (h.fewer hm) name keyword.line) fun decl =>
        Seam.Carries.pure (by simp)
    · refine .thenClosing (Seam.Carries.identifier _) fun name => ?_
      refine .thenClosing (Seam.Carries.symbol _ _) fun _ => ?_
      exact .thenClosing h.expression fun value => .closed (by simp)

theorem carries_classMembers : ∀ {m fuel fuel' : Nat}, m ≤ n → m < fuel → m < fuel' →
    c.Carries m .loose (List.map (ClassMember.moved c.lines)) (classMembers rules fuel)
      (classMembers rules' fuel')
  | m, fuel + 1, fuel' + 1, hm, hfuel, hfuel' => by
      refine .bind (.check _) fun closes =>
        .ite (fun _ => (Seam.Carries.pure rfl).loose) fun _ => ?_
      refine .bind (.check _) fun ends => .ite (fun _ => (Seam.Carries.pure rfl).loose) fun _ => ?_
      refine .takingThen (carries_classMember (h.mono hm)) fun s m' hm' => ?_
      exact .bind (carries_classMembers (by omega) (by omega) (by omega))
        fun more => (Seam.Carries.pure rfl).loose

theorem carries_classRest (keyword : Token) (isStruct : Bool) :
    c.Carries n .closing (Statement.moved c.lines) (classRest rules keyword isStruct)
      (classRest rules' (keyword.moved c.lines) isStruct) := by
  have hbody : ∀ name base, ∀ m ≤ n, c.Carries m .closing (Statement.moved c.lines)
      (symbol .leftBrace .beforeClassBody >>= fun _ => classMembers rules rules.passes >>=
        fun members => symbol .rightBrace .afterClassBody >>= fun _ =>
          pure (.mk keyword.line (.classDecl name base members isStruct)))
      (symbol .leftBrace .beforeClassBody >>= fun _ => classMembers rules' rules'.passes >>=
        fun members => symbol .rightBrace .afterClassBody >>= fun _ =>
          pure (.mk (keyword.line + c.lines)
            (.classDecl name (movedBound c.lines base) members isStruct))) := by
    intro name base m hm
    have h' := h.mono hm
    refine .thenClosing (Seam.Carries.symbol _ _) fun _ => ?_
    exact .thenClosing (carries_classMembers h' (Nat.le_refl m) h'.passes h'.passes') fun members =>
      .closed (by simp)
  refine .thenClosing (Seam.Carries.identifier _) fun name => ?_
  refine .acceptSymbolThen nofun (fun m hm => ?_) ?_
  · refine Seam.Carries.firm (.thenClosing (h.fewer hm).expression fun e => ?_)
    refine .thenClosing (Seam.Carries.symbol _ _) fun _ => ?_
    have hclass := hbody name.lexeme (some e) m (Nat.le_of_lt hm)
    rw [movedBound] at hclass
    exact hclass
  · have hclass := hbody name.lexeme none n (Nat.le_refl n)
    rw [movedBound] at hclass
    exact hclass

theorem carries_standardPath :
    c.Carries n .loose id (standardPath rules) (standardPath rules') := by
  refine .bind (Seam.Carries.identifier _).firm.loose fun first => ?_
  exact .bind (carries_moduleParts (Nat.le_refl n) h.passes h.passes') fun more =>
    (Seam.Carries.pure rfl).loose

theorem carries_importPath : c.Carries n .loose id (importPath rules) (importPath rules') := by
  have hstandard := carries_standardPath h
  rintro (_ | ⟨t, us⟩) hus
  · refine (hstandard [] hus).congrEnd (fun h => by cases h) ?_
    simp [importPath, c.mark_kind]
  · by_cases hstring : t.kind = .string
    · intro a rest hrun
      rw [Seam.alone_cons, importPath, if_pos hstring] at hrun
      split at hrun <;> cases hrun
      rename_i path hpath
      refine ⟨us, List.suffix_cons _ us, rfl, (fun h => by cases h), fun _ => ?_⟩
      simp [importPath, hstring, hpath]
    · refine (hstandard _ hus).congr ?_ ?_
      · rw [Seam.alone_cons, importPath, if_neg hstring]
      · rw [Seam.joined_cons, importPath, Token.kind_moved, if_neg hstring]

theorem carries_importRest (keyword : Token) : c.Carries n .closing (Statement.moved c.lines)
    (importRest rules keyword) (importRest rules' (keyword.moved c.lines)) := by
  refine .thenClosing (carries_importPath h) fun path => ?_
  refine .acceptKeywordThen nofun (fun m hm => ?_) ?_
  · refine Seam.Carries.firm (.thenClosing (Seam.Carries.identifier _) fun name => ?_)
    exact .closed (by simp)
  · exact .closed (by simp)

/-! ### Statements -/

theorem carries_elifBranches (w : Surroundings) : ∀ {m fuel fuel' : Nat}, m ≤ n → m < fuel →
    m < fuel' → c.Carries m .firm (List.map (Branch.moved c.lines)) (elifBranches rules w fuel)
      (elifBranches rules' w fuel')
  | m, fuel + 1, fuel' + 1, hm, hfuel, hfuel' => by
      refine .acceptKeywordThen (fun _ => next_behind_ne (by decide)) (fun m' hm' => ?_)
        (Seam.Carries.pure rfl)
      have h' : CarriesRules c m' rules rules' := h.mono (by omega)
      refine Seam.Carries.firm (.thenClosing h'.expression fun condition => ?_)
      refine .closingThen (Seam.Carries.symbol _ _) fun _ => ?_
      refine .bind (carries_block h' w).firm fun body => ?_
      exact .bind (carries_elifBranches w (by omega) (by omega) (by omega)) fun more =>
        Seam.Carries.pure (by simp)

theorem carries_ifRest (line : UInt32) : c.Carries n .closing (Statement.moved c.lines)
    (ifRest rules w line) (ifRest rules' w (line + c.lines)) := by
  refine .thenClosing h.expression fun condition => ?_
  refine .closingThen (Seam.Carries.symbol _ _) fun _ => ?_
  refine .bind (carries_block h w).firm fun body => ?_
  refine .bind (carries_elifBranches h w (Nat.le_refl n) h.passes h.passes') fun more => ?_
  refine .acceptKeywordThen (fun _ => next_behind_ne (by decide)) (fun m hm => ?_) ?_
  · refine .bind (Seam.Carries.symbol _ _).firm fun _ => ?_
    exact .bind (carries_block (h.fewer hm) w).firm fun statements =>
      Seam.Carries.pure (by simp [movedElse])
  · exact Seam.Carries.pure (by simp [movedElse])

theorem carries_loopBody : c.Carries n .closing (List.map (Statement.moved c.lines))
    (loopBody rules w) (loopBody rules' w) :=
  .thenClosing (Seam.Carries.symbol _ _) fun _ => carries_block h _

theorem carries_whileRest (line : UInt32) : c.Carries n .closing (Statement.moved c.lines)
    (whileRest rules w line) (whileRest rules' w (line + c.lines)) := by
  refine .thenClosing h.expression fun condition => ?_
  exact .closingThen (carries_loopBody h) fun body => Seam.Carries.pure (by simp)

theorem carries_forRest (line : UInt32) : c.Carries n .closing (Statement.moved c.lines)
    (forRest rules w line) (forRest rules' w (line + c.lines)) := by
  refine .thenClosing (Seam.Carries.identifier _) fun name => ?_
  refine .thenClosing (Seam.Carries.expect (fun h => by cases h) _) fun _ => ?_
  refine .thenClosing (carries_rangeBound h) fun start => ?_
  refine .thenClosing (Seam.Carries.symbol _ _) fun _ => ?_
  refine .thenClosing (carries_rangeBound h) fun stop => ?_
  exact .closingThen (carries_loopBody h) fun body => Seam.Carries.pure (by simp)

theorem carries_catchClauses (w : Surroundings) : ∀ {m fuel fuel' : Nat}, m ≤ n → m < fuel →
    m < fuel' → c.Carries m .firm (List.map (CatchClause.moved c.lines))
      (catchClauses rules w fuel) (catchClauses rules' w fuel')
  | m, fuel + 1, fuel' + 1, hm, hfuel, hfuel' => by
      refine .acceptThen nofun (fun _ => next_behind_ne (by decide)) (fun keyword m' hm' => ?_)
        (Seam.Carries.pure rfl)
      have h' : CarriesRules c m' rules rules' := h.mono (by omega)
      refine .bind (Seam.Carries.symbol _ _).firm fun _ => ?_
      refine .bind (Seam.Carries.identifier _).firm fun name => ?_
      refine .bind (Seam.Carries.symbol _ _).firm fun _ => ?_
      refine Seam.Carries.firm (.thenClosing h'.expression fun errorType => ?_)
      refine .closingThen (Seam.Carries.symbol _ _) fun _ => ?_
      refine .bind (Seam.Carries.symbol _ _).firm fun _ => ?_
      refine .bind (carries_block h' w).firm fun body => ?_
      exact .bind (carries_catchClauses w (by omega) (by omega) (by omega)) fun more =>
        Seam.Carries.pure (by simp)

theorem carries_tryRest (line : UInt32) : c.Carries n .closing (Statement.moved c.lines)
    (tryRest rules w line) (tryRest rules' w (line + c.lines)) := by
  refine .thenClosing (Seam.Carries.symbol _ _) fun _ => ?_
  refine .closingThen (carries_block h w) fun body => ?_
  refine .bind (carries_catchClauses h w (Nat.le_refl n) h.passes h.passes') fun clauses => ?_
  rw [List.isEmpty_map]
  exact .ite (fun _ => .fail _) fun _ => Seam.Carries.pure (by simp)

theorem carries_returnRest (keyword : Token) : c.Carries n .closing (Statement.moved c.lines)
    (returnRest rules w keyword) (returnRest rules' w (keyword.moved c.lines)) := by
  refine .ite (fun _ => .failAt _ _) fun _ => ?_
  refine .thenClosing (.check _) fun closes => .ite (fun _ => .closed (by simp)) fun _ => ?_
  exact .thenClosing (h.expression.items h.passes h.passes') fun values => .closed (by simp)

omit h in
theorem carries_breakRest (keyword : Token) : c.Carries n .closing (Statement.moved c.lines)
    (breakRest w keyword) (breakRest w (keyword.moved c.lines)) :=
  .ite (fun _ => .failAt _ _) fun _ => .closed (by simp)

theorem carries_throwRest (line : UInt32) : c.Carries n .closing (Statement.moved c.lines)
    (throwRest rules line) (throwRest rules' (line + c.lines)) :=
  .thenClosing h.expression fun value => .closed (by simp)

omit h in
theorem moved_tupleOrSingle (k : UInt32) (es : List Expr) :
    (tupleOrSingle es).moved k = tupleOrSingle (es.map (Expr.moved k)) := by
  rcases es with _ | ⟨e, _ | ⟨e', es⟩⟩ <;> simp [tupleOrSingle]

theorem carries_expressionStatement : c.Carries n .closing (Statement.moved c.lines)
    (expressionStatement rules) (expressionStatement rules') := by
  refine .thenClosing .peek fun first => ?_
  refine .thenClosing ((carries_expression h).items h.passes h.passes') fun exprs => ?_
  refine .acceptThen nofun nofun (fun equal m hm => ?_) ?_
  · have hfind : (exprs.map (Expr.moved c.lines)).find? (fun e => !e.isAssignable) =
        (exprs.find? fun e => !e.isAssignable).map (Expr.moved c.lines) := by
      rw [List.find?_map]
      simp only [Function.comp_def, Expr.isAssignable_moved]
    have h' := h.fewer hm
    dsimp only
    rw [hfind]
    cases exprs.find? fun e => !e.isAssignable with
    | some target => exact .failAt _ _
    | none =>
        refine Seam.Carries.firm (.thenClosing ((carries_expression h').items h'.passes h'.passes')
          fun values => ?_)
        exact .closed (by simp)
  · exact .closed (by simp [moved_tupleOrSingle])

theorem carries_keywordRest {k : Keyword} {t : Token} {p : Parser Statement}
    (hp : keywordRest? rules w k t = some p) : ∃ q,
      keywordRest? rules' w k (t.moved c.lines) = some q ∧
        c.Carries n .closing (Statement.moved c.lines) p q := by
  unfold keywordRest? at hp
  split at hp <;> cases hp
  · exact ⟨_, rfl, carries_classRest h t false⟩
  · exact ⟨_, rfl, carries_classRest h t true⟩
  · exact ⟨_, rfl, carries_importRest h t⟩
  · exact ⟨_, rfl, carries_ifRest h t.line⟩
  · exact ⟨_, rfl, carries_whileRest h t.line⟩
  · exact ⟨_, rfl, carries_forRest h t.line⟩
  · exact ⟨_, rfl, .closingThen (carries_loopBody h) fun body => Seam.Carries.pure (by simp)⟩
  · exact ⟨_, rfl, carries_tryRest h t.line⟩
  · exact ⟨_, rfl, carries_returnRest h t⟩
  · exact ⟨_, rfl, carries_breakRest t⟩
  · exact ⟨_, rfl, carries_throwRest h t.line⟩

omit h in
theorem keywordRest_eq_none {k : Keyword} {t t' : Token} (hp : keywordRest? rules w k t = none) :
    keywordRest? rules' w k t' = none := by
  cases k <;> first | rfl | cases hp

theorem carries_functionStatement : c.Carries n .closing (Statement.moved c.lines)
    (functionStatement rules) (functionStatement rules') :=
  .closingThen (carries_function h) fun decl =>
    Seam.Carries.pure (by cases decl; simp [FunctionDecl.line])

theorem carries_declaration (w : Surroundings) : c.Carries n .closing (Statement.moved c.lines)
    (Grammar.declaration rules w) (Grammar.declaration rules' w) := by
  rintro (_ | ⟨t, us⟩) hus
  · refine (carries_expressionStatement h [] hus).congrEnd nofun ?_
    simp [Grammar.declaration, c.mark_kind]
  have h' : CarriesRules c us.length rules rules' := h.fewer hus
  have hstatement := carries_expressionStatement h (t :: us) hus
  by_cases hbrace : t.kind = .symbol .leftBrace
  · have hblock : c.Carries us.length .closing (Statement.moved c.lines)
        (block rules w >>= fun body => pure (.mk t.line (.block body [])))
        (block rules' w >>= fun body => pure (.mk (t.line + c.lines) (.block body []))) :=
      .closingThen (carries_block h' w) fun body => Seam.Carries.pure (by simp)
    exact (hblock.firm us (Nat.le_refl _)).cons (by simp [Grammar.declaration, hbrace])
      (by simp [Grammar.declaration, hbrace])
  by_cases hfun : t.kind = .keyword .fun
  · rcases us with _ | ⟨u, us⟩
    · -- `fun` before the end is no statement, whatever stands behind the seam
      have hprimary : Refuses (primary rules) [t, c.mark] := by
        intro a rest hrun
        have hlambda : lambdaRest rules t.line [c.mark] = .ok (a, rest) := by
          simpa [primary, hfun, isLiteralKind] using hrun
        obtain ⟨u, mid, hmid, hu, -⟩ := symbol_bind.mp hlambda
        rw [← (List.cons.inj hmid).1, c.mark_kind] at hu
        cases hu
      have hrefuses := expressionStatement_refuses (by rw [hfun]; rfl) (by simp [hfun]) hprimary
      intro a rest hrun
      refine absurd ?_ (hrefuses a rest)
      simpa [Grammar.declaration, hfun, current, c.mark_kind] using hrun
    · by_cases hname : u.kind = .identifier
      · exact ((carries_functionStatement h').firm (u :: us) (Nat.le_refl _)).cons
          (by simp [Grammar.declaration, hfun, hname, current])
          (by simp [Grammar.declaration, hfun, hname, current])
      · exact hstatement.congr (by simp [Grammar.declaration, hfun, hname, current])
          (by simp [Grammar.declaration, hfun, hname, current])
  by_cases hword : ∃ k, t.kind = .keyword k
  · obtain ⟨k, hk⟩ := hword
    have hne : k ≠ .fun := fun he => hfun (he ▸ hk)
    cases hrest : keywordRest? rules w k t with
    | some p =>
        obtain ⟨q, hq, hcarries⟩ := carries_keywordRest h' hrest
        exact (hcarries.firm us (Nat.le_refl _)).cons (by simp [Grammar.declaration, hk, hrest])
          (by simp [Grammar.declaration, hk, hq])
    | none =>
        have hnone : keywordRest? rules' _ k (t.moved c.lines) = none := keywordRest_eq_none hrest
        exact hstatement.congr (by simp [Grammar.declaration, hk, hrest])
          (by simp [Grammar.declaration, hk, hnone])
  · have hother : ∀ {rules : Rules} {t' : Token} {ts : List Token}, t'.kind = t.kind →
        Grammar.declaration rules w (t' :: ts) = expressionStatement rules (t' :: ts) := by
      intro rules t' ts hkind
      simp only [Grammar.declaration, hkind]
      split
      case h_1 hk => exact absurd hk hbrace
      case h_2 hk => exact absurd hk hfun
      case h_3 k _ hk => exact absurd ⟨k, hk⟩ hword
      case h_4 => rfl
    exact hstatement.congr (hother rfl) (hother rfl)

end rules

/-! ### Whole texts -/

/-- The rules for texts that are nested as deeply read the same at a seam. -/
theorem carries_rulesAt {passes passes' : Nat} (hpasses : n < passes) (hpasses' : n < passes') :
    ∀ {depth depth' : Nat}, depth ≤ depth' →
      CarriesRules c n (rulesAt passes depth) (rulesAt passes' depth')
  | 0, depth', _ =>
      { passes := hpasses
        passes' := by cases depth' <;> exact hpasses'
        expression := .fail _
        signed := .fail _
        typeExpr := .fail _
        declaration := fun _ => .fail _ }
  | depth + 1, depth' + 1, hdepth => by
      have h := carries_rulesAt hpasses hpasses' (Nat.le_of_succ_le_succ hdepth)
      exact
        { passes := hpasses
          passes' := hpasses'
          expression := carries_expression h
          signed := carries_signed h
          typeExpr := carries_postfixed h
          declaration := carries_declaration h }

section programs
variable {p q : Parser Statement} {fuel : Nat} {code : List Statement} {ts us : List Token}

theorem program_at_end (fuel : Nat) (h : next ts = .endOfInput) : program p fuel ts = ([], []) := by
  cases fuel with
  | zero => rfl
  | succ fuel => exact program_eq_nil_iff.mpr h

theorem program_cons {s : Statement} {rest : List Token} (hts : next ts ≠ .endOfInput)
    (h : p ts = .ok (s, rest)) : program p (fuel + 1) ts =
      (s :: (program p fuel rest).1, (program p fuel rest).2) := by
  have hgoes : ¬ (current ts).kind = .endOfInput := hts
  rw [program, if_neg hgoes, h]

/-- A text without errors that goes on begins with a statement. -/
theorem exists_of_program (hts : next ts ≠ .endOfInput)
    (h : program p (fuel + 1) ts = (code, [])) : ∃ s rest more, p ts = .ok (s, rest) ∧
      program p fuel rest = (more, []) ∧ code = s :: more := by
  cases hp : p ts with
  | ok r =>
      rw [program_cons hts hp] at h
      obtain ⟨hcode, herrors⟩ := Prod.mk.inj h
      exact ⟨r.1, r.2, _, rfl, Prod.ext rfl herrors, hcode.symm⟩
  | error failure =>
      have hgoes : ¬ (current ts).kind = .endOfInput := hts
      rw [program, if_neg hgoes, hp] at h
      cases h

theorem program_joined (h : c.Carries n .closing (Statement.moved c.lines) p q) :
    ∀ {fuel us code}, us.length ≤ n → us.length < fuel → (∀ t ∈ us, t.kind ≠ .endOfInput) →
      program p fuel (c.alone us) = (code, []) → code.length ≤ us.length ∧
        ∀ fuel', program q (fuel' + code.length) (c.joined us) =
          (code.map (Statement.moved c.lines) ++ (program q fuel' c.behind).1,
            (program q fuel' c.behind).2)
  | fuel + 1, [], code, _, _, _, hrun => by
      have hend : next (c.alone []) = .endOfInput := c.mark_kind
      rw [program_at_end _ hend] at hrun
      obtain ⟨rfl, -⟩ := Prod.mk.inj hrun
      exact ⟨Nat.le_refl 0, fun fuel' => rfl⟩
  | fuel + 1, t :: us, code, hus, hfuel, hkinds, hrun => by
      have hnext : next (c.alone (t :: us)) ≠ .endOfInput := hkinds t (by simp)
      obtain ⟨s, rest, more, hs, hmore, rfl⟩ := exists_of_program hnext hrun
      obtain ⟨vs, hvs, rfl, hclosing, hq⟩ := h (t :: us) hus s rest hs
      have hlength := hclosing rfl
      obtain ⟨hcode, ih⟩ := program_joined h (Nat.le_trans hvs.length_le hus)
        (Nat.lt_of_lt_of_le hlength (Nat.le_of_lt_succ hfuel))
        (fun u hu => hkinds u (hvs.subset hu)) hmore
      refine ⟨Nat.succ_le_of_lt (Nat.lt_of_le_of_lt hcode hlength), fun fuel' => ?_⟩
      have hnext' : next (c.joined (t :: us)) ≠ .endOfInput := hkinds t (by simp)
      rw [List.length_cons, ← Nat.add_assoc, program_cons hnext' (hq nofun), ih]
      rfl

end programs

theorem parse_eq_ok {source : String} {code : List Statement} :
    parse source = .ok code ↔ ∃ ts, Token.scan source = .ok ts ∧ parseTokens ts = .ok code := by
  unfold parse
  cases Token.scan source <;> simp

/-- The first token of a text without errors goes on with nothing. -/
theorem fresh_of_program {fuel : Nat} {us : List Token} {mark : Token} {code : List Statement}
    {rules : Rules} (hmark : mark.kind = .endOfInput) (hkinds : ∀ t ∈ us, t.kind ≠ .endOfInput)
    (h : program (Grammar.declaration rules w) (fuel + 1) (us ++ [mark]) = (code, [])) :
    next (us ++ [mark]) ∉ seamContinuations := by
  cases us with
  | nil =>
      rw [List.nil_append, next_cons, hmark]
      decide
  | cons t us =>
      intro hmem
      have hnext : next (t :: us ++ [mark]) ≠ .endOfInput := hkinds t (by simp)
      obtain ⟨s, rest, -, hs, -⟩ := exists_of_program hnext h
      exact declaration_refuses hmem s rest hs

/-- A text that has statements alone has them at a seam, for any longer bounds. -/
theorem program_rulesAt_joined {us : List Token} {code : List Statement} {size : Nat}
    (w : Surroundings) (hkinds : ∀ t ∈ us, t.kind ≠ .endOfInput) (hsize : us.length + 1 ≤ size)
    (h : program (Grammar.declaration (rulesAt (us.length + 2) (us.length + 1)) w) (us.length + 2)
      (c.alone us) = (code, [])) : code.length ≤ us.length ∧ ∀ fuel,
        program (Grammar.declaration (rulesAt (size + 1) size) w) (fuel + code.length)
            (c.joined us) =
          (code.map (Statement.moved c.lines) ++
              (program (Grammar.declaration (rulesAt (size + 1) size) w) fuel c.behind).1,
            (program (Grammar.declaration (rulesAt (size + 1) size) w) fuel c.behind).2) := by
  have hrules : CarriesRules c us.length (rulesAt (us.length + 2) (us.length + 1))
      (rulesAt (size + 1) size) := carries_rulesAt (by omega) (by omega) hsize
  exact program_joined (carries_declaration hrules w) (Nat.le_refl _) (by omega) hkinds h

/-- The statements of two texts with a newline between them are those of the first and those of the
second, which stand further down by the lines of the first.  Lines have 32 bits, and so has what
they are moved by. -/
theorem parse_newline {a b : String} {before after : List Statement} (ha : parse a = .ok before)
    (hb : parse b = .ok after) : parse (a ++ "\n" ++ b) =
      .ok (before ++ after.map (Statement.moved (.ofNat (Token.newlines a + 1)))) := by
  obtain ⟨ts, hscanA, hparseA⟩ := parse_eq_ok.mp ha
  obtain ⟨ts', hscanB, hparseB⟩ := parse_eq_ok.mp hb
  obtain ⟨us, mark, rfl, hmark, hus, hscan⟩ := Token.scan_newline hscanA hscanB
  obtain ⟨vs, mark', rfl, hmark', hvs, -⟩ := Token.scan_newline hscanB hscanB
  have hrunA := parseTokens_eq_ok.mp hparseA
  have hrunB := parseTokens_eq_ok.mp hparseB
  generalize hk : UInt32.ofNat (Token.newlines a + 1) = k at hscan ⊢
  refine parse_eq_ok.mpr ⟨_, hscan, parseTokens_eq_ok.mpr ?_⟩
  simp only [List.length_append, List.length_map, List.length_cons, List.length_nil,
    Nat.zero_add] at hrunA hrunB ⊢
  -- the seam between the texts, and the end of the second one
  have hfresh : next ((vs ++ [mark']).map (Token.moved k)) ∉ seamContinuations := by
    have hnext : next ((vs ++ [mark']).map (Token.moved k)) = next (vs ++ [mark']) := by
      cases vs <;> rfl
    rw [hnext]
    exact fresh_of_program hmark' hvs hrunB
  have hend : next [mark'.moved k] ∉ seamContinuations := by
    rw [next_cons, Token.kind_moved, hmark']
    decide
  have hsizeA : us.length + 1 ≤ us.length + (vs.length + 1) := by omega
  have hsizeB : vs.length + 1 ≤ us.length + (vs.length + 1) := by omega
  obtain ⟨hbefore, hfirst⟩ := program_rulesAt_joined (c := ⟨0, mark, _, hmark, hfresh⟩)
    ⟨false, false⟩ hus hsizeA hrunA
  obtain ⟨hafter, hsecond⟩ := program_rulesAt_joined (c := ⟨k, mark', _, hmark', hend⟩)
    ⟨false, false⟩ hvs hsizeB hrunB
  obtain ⟨fuel, hfuel⟩ : ∃ fuel,
      us.length + (vs.length + 1) + 1 = fuel + after.length + before.length :=
    ⟨us.length + vs.length + 2 - (after.length + before.length), by omega⟩
  have hend : next [mark'.moved k] = .endOfInput := hmark'
  have hstays : before.map (Statement.moved 0) = before :=
    (List.map_congr_left fun s _ => s.moved_zero).trans (List.map_id' before)
  have htokens : us.map (Token.moved 0) = us :=
    (List.map_congr_left fun t _ => t.moved_zero).trans (List.map_id' us)
  have hbehind : (vs ++ [mark']).map (Token.moved k) = vs.map (Token.moved k) ++ [mark'.moved k] :=
    List.map_append
  generalize Grammar.declaration (rulesAt _ _) _ = p at hfirst hsecond ⊢
  have hsecond' : program p (fuel + after.length) ((vs ++ [mark']).map (Token.moved k)) =
      (after.map (Statement.moved k), []) := by
    rw [hbehind]
    refine (hsecond fuel).trans ?_
    rw [program_at_end fuel hend, List.append_nil]
  calc program p (us.length + (vs.length + 1) + 1) (us ++ (vs ++ [mark']).map (Token.moved k))
      = program p (fuel + after.length + before.length)
          (us.map (Token.moved 0) ++ (vs ++ [mark']).map (Token.moved k)) := by rw [hfuel, htokens]
    _ = _ := hfirst (fuel + after.length)
    _ = (before ++ after.map (Statement.moved k), []) := by rw [hsecond', hstays]

/-- Two texts, of which the second begins with a comment on a line of its own. -/
def conditionalThenLambda : String × String :=
  ("if a \x7b\n  b = 1;\n\x7d // no else", "// later\nf = fun(x) \x7b\n  return x;\n\x7d;")

theorem exists_of_isOk {source : String} (h : (parse source).isOk = true) :
    ∃ code, parse source = .ok code := by
  cases hresult : parse source with
  | ok code => exact ⟨code, rfl⟩
  | error errors =>
      rw [hresult] at h
      cases h

theorem parse_newline_conditional_then_lambda : ∃ before after,
    parse conditionalThenLambda.1 = .ok before ∧ parse conditionalThenLambda.2 = .ok after ∧
      parse (conditionalThenLambda.1 ++ "\n" ++ conditionalThenLambda.2) =
        .ok (before ++ after.map (Statement.moved 3)) := by
  have hfirst : (parse conditionalThenLambda.1).isOk = true := by decide +kernel
  have hsecond : (parse conditionalThenLambda.2).isOk = true := by decide +kernel
  obtain ⟨before, hbefore⟩ := exists_of_isOk hfirst
  obtain ⟨after, hafter⟩ := exists_of_isOk hsecond
  exact ⟨before, after, hbefore, hafter, parse_newline hbefore hafter⟩

end Classlet.Grammar
