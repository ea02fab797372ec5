import Classlet.Proofs.Grammar.Operators
import Classlet.Proofs.Grammar.Yields

/-! # Expression statements

The statements that consist of an expression are just the comma lists of the grammar, with a
semicolon behind them (`parseTokens_expression_iff`). -/

namespace Classlet.Grammar

open Classlet.Parser

variable {n fuel : Nat} {rules : Rules} {ts us rest : List Token} {x : Expr} {xs : List Expr}
  {line : UInt32} {w : Surroundings}

/-! ### Comma lists -/

theorem Separated.ne_nil {α : Type} {item : List Token → α → Prop} {as : List α}
    (h : Separated item ts as) : as ≠ [] := by
  cases h <;> simp

/-- A comma list is a list of expressions, of which several make up a tuple. -/
theorem derivesList_iff : DerivesList ts x ↔
    ∃ xs, Separated (Derives .disjunction) ts xs ∧ x = tupleOrSingle xs := by
  constructor
  · rintro (hx | ⟨hxs, hlength⟩)
    · exact ⟨[x], .one hx, rfl⟩
    · rename_i xs
      refine ⟨xs, hxs, ?_⟩
      rcases xs with _ | ⟨x, _ | ⟨y, xs⟩⟩
      · cases hlength
      · simp at hlength
      · rfl
  · rintro ⟨xs, hxs, rfl⟩
    rcases xs with _ | ⟨x, _ | ⟨y, xs⟩⟩
    · exact absurd rfl hxs.ne_nil
    · cases hxs with
      | one hx => exact .single hx
      | more _ _ hmore => exact absurd rfl hmore.ne_nil
    · exact .tuple hxs (by simp)

theorem Separated.begins (h : Separated (Derives .disjunction) ts xs) (vs : List Token) :
    Level.disjunction.Begins (next (ts ++ vs)) := by
  cases h with
  | one hx => exact hx.begins vs
  | more hx _ _ =>
      rw [List.append_assoc]
      exact hx.begins _

/-! ### Other statements -/

/-- A statement that does not just evaluate an expression. -/
def IsOther : Statement → Prop
  | .mk _ (.expression _) => False
  | _ => True

theorem keywordRest_other {k : Keyword} {t : Token} {p : Parser Statement}
    (hp : keywordRest? rules w k t = some p) : Yields p (fun _ => True) IsOther := by
  unfold keywordRest? at hp
  split at hp <;> cases hp
  -- whichever way they go, they end in a statement of their own kind
  all_goals
    repeat' first
      | exact .pure trivial
      | exact .fail _
      | exact .failAt _ _
      | refine .bind (.any _) fun _ _ => ?_
      | refine .ite ?_ ?_

/-! ### The statement -/

/-- It is a comma list and a semicolon; what has an equals sign instead is an assignment. -/
theorem expressionStatement_eq_ok (h : rules.Exact n) (hts : Clean (n + 1) ts) :
    expressionStatement rules ts = .ok (.mk line (.expression x), rest) ↔
      line = (current ts).line ∧
        ∃ us semicolon, ts = us ++ semicolon :: rest ∧ semicolon.kind = .symbol .semicolon ∧
          DerivesList us x := by
  have hitems := (expression_exact h).items (Level.stops_of_none rfl _) h.passes ts hts
  have hpeek : ∀ f : Token → Parser Statement, (peek >>= f) ts = f (current ts) ts := fun _ => rfl
  rw [expressionStatement, hpeek, bind_eq_ok]
  simp only [hitems, derivesList_iff]
  constructor
  · rintro ⟨xs, mid, ⟨us, rfl, hxs, -⟩, hrun⟩
    rcases (accept_bind (fun h => by cases h)).mp hrun with
      ⟨equal, mid', rfl, -, hassign⟩ | ⟨-, hrun⟩
    · dsimp only at hassign
      cases htarget : xs.find? fun e => !e.isAssignable with
      | some target =>
          rw [htarget] at hassign
          cases hassign
      | none =>
          rw [htarget] at hassign
          obtain ⟨values, _, -, hclose⟩ := bind_eq_ok.mp hassign
          obtain ⟨_, -, -, heq⟩ := symbol_pure.mp hclose
          cases heq
    · obtain ⟨semicolon, rfl, hk, heq⟩ := symbol_pure.mp hrun
      cases heq
      exact ⟨rfl, us, semicolon, rfl, hk, xs, hxs, rfl⟩
  · rintro ⟨rfl, us, semicolon, rfl, hk, xs, hxs, rfl⟩
    refine ⟨xs, semicolon :: rest, ⟨us, rfl, hxs, Level.stops_before hk rfl, by simp [hk]⟩, ?_⟩
    exact (accept_bind (fun h => by cases h)).mpr
      (.inr ⟨by simp [hk], symbol_pure.mpr ⟨semicolon, rfl, hk, rfl⟩⟩)

theorem declaration_of_begins (h : Level.disjunction.Begins (next ts)) :
    declaration rules w ts = expressionStatement rules ts := by
  cases ts with
  | nil => rfl
  | cons t ts =>
      have hmem := h.mem
      simp only [next_cons, primaryBeginnings, literalKinds, List.cons_append, List.nil_append,
        List.mem_cons, List.not_mem_nil, or_false] at hmem
      rcases hmem with hk | hk | hk | hk | hk | hk | hk | hk | hk | hk | hk | hk | hk <;>
        simp [declaration, hk, keywordRest?]

theorem declaration_eq_ok (h : rules.Exact n) (hts : Clean (n + 1) ts) :
    declaration rules w ts = .ok (.mk line (.expression x), rest) ↔
      expressionStatement rules ts = .ok (.mk line (.expression x), rest) := by
  constructor
  · intro hrun
    cases ts with
    | nil => exact hrun
    | cons t ts =>
        have hfun := hts.noFun t (by simp)
        simp only [declaration] at hrun
        split at hrun
        case h_1 =>
          have hother : Yields (do
              let body ← block rules w
              pure (Statement.mk t.line (.block body []))) (fun _ => True) IsOther :=
            .bind (.any _) fun _ _ => .pure trivial
          exact (hother _ (fun _ _ => trivial) _ _ hrun).1.elim
        case h_2 hk => exact absurd hk hfun
        case h_3 k _ _ =>
          split at hrun
          case h_1 p hp => exact (keywordRest_other hp _ (fun _ _ => trivial) _ _ hrun).1.elim
          case h_2 => exact hrun
        case h_4 => exact hrun
  · intro hrun
    obtain ⟨-, us, semicolon, rfl, -, hus⟩ := (expressionStatement_eq_ok h hts).mp hrun
    obtain ⟨xs, hxs, -⟩ := derivesList_iff.mp hus
    rwa [declaration_of_begins (hxs.begins _)]

/-! ### Whole texts -/

theorem program_eq_nil_iff {declaration : Parser Statement} :
    program declaration (fuel + 1) ts = ([], []) ↔ next ts = .endOfInput := by
  rw [program, next]
  split
  case isTrue hend => simp [hend]
  case isFalse hend =>
    cases declaration ts <;> simp [hend]

/-- A text has one statement if the end comes behind it. -/
theorem program_eq_single_iff {declaration : Parser Statement} {s : Statement}
    (hts : next ts ≠ .endOfInput) : program declaration (fuel + 2) ts = ([s], []) ↔
      ∃ rest, declaration ts = .ok (s, rest) ∧ next rest = .endOfInput := by
  have hgoes : ¬ (current ts).kind = .endOfInput := hts
  rw [program, if_neg hgoes]
  cases declaration ts with
  | ok r =>
      obtain ⟨s', rest⟩ := r
      have hsplit : (s' :: (program declaration (fuel + 1) rest).1,
          (program declaration (fuel + 1) rest).2) = ([s], []) ↔
            s' = s ∧ program declaration (fuel + 1) rest = ([], []) := by
        simp [Prod.ext_iff, and_assoc]
      refine hsplit.trans ?_
      rw [program_eq_nil_iff]
      constructor
      · rintro ⟨rfl, hend⟩
        exact ⟨rest, rfl, hend⟩
      · rintro ⟨rest', ⟨⟩, hend⟩
        exact ⟨rfl, hend⟩
  | error failure => simp

theorem parseTokens_eq_ok {code : List Statement} : parseTokens ts = .ok code ↔
    program (declaration (rulesAt (ts.length + 1) ts.length) ⟨false, false⟩) (ts.length + 1) ts =
      (code, []) := by
  have hparse : parseTokens ts =
      let result := program (declaration (rulesAt (ts.length + 1) ts.length) ⟨false, false⟩)
        (ts.length + 1) ts
      if result.2.isEmpty then .ok result.1 else .error result.2 := rfl
  rw [hparse]
  generalize program _ _ _ = result
  obtain ⟨statements, errors⟩ := result
  cases errors <;> simp

theorem eq_of_append_semicolon {semicolon eof last : Token} (hts : ∀ t ∈ ts, t.kind ≠ .endOfInput)
    (hsemicolon : semicolon.kind = .symbol .semicolon) (heof : eof.kind = .endOfInput)
    (hlast : last.kind = .symbol .semicolon) (hrest : next rest = .endOfInput)
    (h : ts ++ [semicolon, eof] = us ++ last :: rest) : us = ts := by
  induction ts generalizing us with
  | nil =>
      rcases us with _ | ⟨u, us⟩
      · rfl
      · rcases us with _ | ⟨v, us⟩
        · obtain ⟨-, rfl, -⟩ : semicolon = u ∧ eof = last ∧ [] = rest := by simpa using h
          rw [heof] at hlast
          cases hlast
        · simp at h
  | cons t ts ih =>
      rcases us with _ | ⟨u, us⟩
      · obtain ⟨-, rfl⟩ : t = last ∧ ts ++ [semicolon, eof] = rest := by simpa using h
        rcases ts with _ | ⟨u, ts⟩
        · rw [List.nil_append, next_cons, hsemicolon] at hrest
          cases hrest
        · exact absurd hrest (hts u (by simp))
      · obtain ⟨rfl, hmore⟩ : t = u ∧ ts ++ [semicolon, eof] = us ++ last :: rest := by
          simpa using h
        rw [ih (fun u hu => hts u (List.mem_cons_of_mem t hu)) hmore]

/-- A text that ends in a semicolon is one expression statement if and only if the grammar derives
what stands before it. -/
theorem parseTokens_expression_iff {semicolon eof : Token}
    (hts : ∀ t ∈ ts, t.kind ≠ .keyword .fun ∧ t.kind ≠ .endOfInput)
    (hsemicolon : semicolon.kind = .symbol .semicolon) (heof : eof.kind = .endOfInput) :
    (∃ line, parseTokens (ts ++ [semicolon, eof]) = .ok [.mk line (.expression x)]) ↔
      DerivesList ts x := by
  have hlength : (ts ++ [semicolon, eof]).length = ts.length + 2 := by simp
  have hclean : Clean (ts.length + 2 + 1) (ts ++ [semicolon, eof]) := by
    refine ⟨by omega, fun t ht => ?_⟩
    simp only [List.mem_append, List.mem_cons, List.not_mem_nil, or_false] at ht
    rcases ht with ht | rfl | rfl
    · exact (hts t ht).1
    · simp [hsemicolon]
    · simp [heof]
  have hrules := exact_rulesAt (Nat.lt_succ_self (ts.length + 2))
  have hnext : next (ts ++ [semicolon, eof]) ≠ .endOfInput := by
    cases ts with
    | nil => simp [hsemicolon]
    | cons t ts => exact (hts t (by simp)).2
  simp only [parseTokens_eq_ok, hlength, program_eq_single_iff hnext,
    declaration_eq_ok hrules hclean, expressionStatement_eq_ok hrules hclean]
  constructor
  · rintro ⟨line, rest, ⟨-, us, last, hsplit, hlast, hus⟩, hend⟩
    rwa [← eq_of_append_semicolon (fun t ht => (hts t ht).2) hsemicolon heof hlast hend hsplit]
  · intro hx
    exact ⟨_, [eof], ⟨rfl, ts, semicolon, rfl, hsemicolon, hx⟩, heof⟩

/-- The tokens of `-a ** -b, f(c, k = d)[:e]`. -/
def powerAndSlice : List Token :=
  [mark .minus, name "a", mark .starStar, mark .minus, name "b", mark .comma,
    name "f", mark .leftParen, name "c", mark .comma, name "k", mark .equal, name "d",
    mark .rightParen, mark .leftBracket, mark .colon, name "e", mark .rightBracket]
where
  mark (s : Symbol) : Token := ⟨.symbol s, s.text, none, 1⟩
  name (text : String) : Token := ⟨.identifier, text, none, 1⟩

/-- A power binds tighter than the sign before it, and its right operand takes signs; a comma makes
a tuple. -/
theorem parseTokens_expression_power_and_slice :
    (∀ t ∈ powerAndSlice, t.kind ≠ .keyword .fun ∧ t.kind ≠ .endOfInput) ∧
      DerivesList powerAndSlice (.tuple
        [.unary .neg (.binary .pow (.var "a") (.unary .neg (.var "b"))),
          .slice (.call (.var "f") [.var "c"] [.mk "k" (.var "d")]) none (some (.var "e"))]) := by
  have hts : ∀ t ∈ powerAndSlice, t.kind ≠ .keyword .fun ∧ t.kind ≠ .endOfInput := by decide
  have hsemicolon : (powerAndSlice.mark .semicolon).kind = .symbol .semicolon := rfl
  have heof : (Token.endOfInput 1).kind = .endOfInput := rfl
  exact ⟨hts, (parseTokens_expression_iff hts hsemicolon heof).mp ⟨1, rfl⟩⟩

end Classlet.Grammar
