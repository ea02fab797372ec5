import Mathlib.Tactic.SplitIfs
import Classlet.Proofs.Grammar.Arguments
import Classlet.Proofs.Grammar.LeftRecursion

/-! # Expressions in brackets

What stands in brackets is read by rules that are exact on fewer tokens.  So the rest of a call, of
an index, of a list and of an expression in parentheses, each behind its opening bracket, are read
just as the grammar has them, and with them primaries and expressions with postfixes. -/

namespace Classlet.Grammar

open Classlet.Parser

variable {n : Nat} {rules : Rules} {ts rest : List Token} {x z : Expr}

/-! ### Behind an operand -/

/-- No closing parenthesis stands where an argument is. -/
theorem next_arguments_ne {us vs : List Token} {as : List (Expr ⊕ KeywordArg)}
    (h : Separated (Argument (Derives .disjunction)) us as) :
    next (us ++ vs) ≠ .symbol .rightParen := by
  have hargument : ∀ {us a} vs, Argument (Derives .disjunction) us a →
      next (us ++ vs) ≠ .symbol .rightParen := by
    rintro us a vs (hx | ⟨hname, -, -⟩)
    · exact hx.next_ne (by decide) vs
    · simp [hname]
  obtain ⟨us, a, ha, ⟨rfl, -⟩ | ⟨comma, ws, -, rfl, -⟩⟩ := separated_iff.mp h
  · exact hargument vs ha
  · rw [List.append_assoc]
    exact hargument _ ha

section operand
variable (h : rules.Exact n) (hts : Clean n ts)
include h hts

theorem callRest_eq_ok : callRest rules x ts = .ok (z, rest) ↔
    ∃ vs r arguments positional keywords, ts = vs ++ r :: rest ∧ z = .call x positional keywords ∧
      Listed false (Argument (Derives .disjunction)) vs arguments ∧ r.kind = .symbol .rightParen ∧
      Admits arguments positional keywords := by
  have hadmits : ∀ {as ps ks}, Collects [] [] as ps ks ↔ Admits as ps ks :=
    fun {as ps ks} => collects_iff (Nat.zero_le _) List.nodup_nil
  rw [callRest, check_bind]
  by_cases hnext : next ts = .symbol .rightParen
  · rw [if_pos (by simpa using hnext)]
    refine (symbol_pure (b := Expr.call x [] []) : _ ↔ _).trans ⟨?_, ?_⟩
    · rintro ⟨r, rfl, hr, rfl⟩
      exact ⟨[], r, [], [], [], rfl, rfl, .none, hr, hadmits.mp .nil⟩
    · rintro ⟨vs, r, as, ps, ks, rfl, rfl, hlisted, hr, ha⟩
      rcases listed_false_iff.mp hlisted with ⟨rfl, rfl⟩ | hsep
      · cases hadmits.mpr ha
        exact ⟨r, rfl, hr, rfl⟩
      · exact absurd hnext (next_arguments_ne hsep)
  · rw [if_neg (by simpa using hnext), bind_eq_ok]
    have harguments := arguments_eq_ok h rules.passes [] [] ts hts
      (Nat.le_trans hts.length (Nat.le_of_lt h.passes))
    constructor
    · rintro ⟨⟨ps, ks⟩, mid, hrun, hclose⟩
      obtain ⟨r, rfl, hr, rfl⟩ := symbol_pure.mp hclose
      obtain ⟨vs, as, rfl, hsep, hcollects⟩ := (harguments ps ks (r :: rest) hr).mp hrun
      exact ⟨vs, r, as, ps, ks, rfl, rfl, .items hsep, hr, hadmits.mp hcollects⟩
    · rintro ⟨vs, r, as, ps, ks, rfl, rfl, hlisted, hr, ha⟩
      rcases listed_false_iff.mp hlisted with ⟨rfl, rfl⟩ | hsep
      · exact absurd hr hnext
      · exact ⟨(ps, ks), r :: rest, (harguments ps ks (r :: rest) hr).mpr
          ⟨vs, as, rfl, hsep, hadmits.mpr ha⟩, symbol_pure.mpr ⟨r, rfl, hr, rfl⟩⟩

theorem sliceRest_eq_ok {start : Option Expr} :
    indexRest.sliceRest rules x start ts = .ok (z, rest) ↔
      ∃ ws r stop, ts = ws ++ r :: rest ∧ z = .slice x start stop ∧
        Bound (Derives .disjunction) ws stop ∧ r.kind = .symbol .rightBracket := by
  rw [indexRest.sliceRest, check_bind]
  by_cases hnext : next ts = .symbol .rightBracket
  · rw [if_pos (by simpa using hnext)]
    refine (symbol_pure (b := Expr.slice x start none) : _ ↔ _).trans ⟨?_, ?_⟩
    · rintro ⟨r, rfl, hr, rfl⟩
      exact ⟨[], r, none, rfl, rfl, .none, hr⟩
    · rintro ⟨ws, r, stop, rfl, rfl, _ | hstop, hr⟩
      · exact ⟨r, rfl, hr, rfl⟩
      · exact absurd hnext (hstop.next_ne (by decide) _)
  · rw [if_neg (by simpa using hnext), bind_eq_ok]
    constructor
    · rintro ⟨y, mid, hrun, hclose⟩
      obtain ⟨r, rfl, hr, rfl⟩ := (symbol_pure (b := Expr.slice x start (some y))).mp hclose
      obtain ⟨ws, rfl, hy, -⟩ := (h.expression ts hts y _).mp hrun
      exact ⟨ws, r, some y, rfl, rfl, .some hy, hr⟩
    · rintro ⟨ws, r, stop, rfl, rfl, _ | hstop, hr⟩
      · exact absurd hr hnext
      · exact ⟨_, r :: rest,
          (h.expression _ hts _ _).mpr ⟨ws, rfl, hstop, Level.stops_before hr rfl⟩,
          (symbol_pure (b := Expr.slice x start (some _))).mpr ⟨r, rfl, hr, rfl⟩⟩

theorem indexRest_eq_ok : indexRest rules x ts = .ok (z, rest) ↔
    (∃ vs i r, ts = vs ++ r :: rest ∧ z = .index x i ∧ Derives .disjunction vs i ∧
      r.kind = .symbol .rightBracket) ∨
    ∃ vs start colon ws stop r, ts = vs ++ colon :: (ws ++ r :: rest) ∧ z = .slice x start stop ∧
      Bound (Derives .disjunction) vs start ∧ colon.kind = .symbol .colon ∧
      Bound (Derives .disjunction) ws stop ∧ r.kind = .symbol .rightBracket := by
  rw [indexRest, acceptSymbol_bind]
  simp only [if_true, Bool.false_eq_true, if_false]
  constructor
  · rintro (⟨colon, mid, rfl, hcolon, hrun⟩ | ⟨-, hrun⟩)
    · obtain ⟨ws, r, stop, rfl, rfl, hstop, hr⟩ := (sliceRest_eq_ok h hts.cons).mp hrun
      exact .inr ⟨[], none, colon, ws, stop, r, rfl, rfl, .none, hcolon, hstop, hr⟩
    · obtain ⟨i, mid, hread, hrest⟩ := bind_eq_ok.mp hrun
      obtain ⟨vs, rfl, hi, -⟩ := (h.expression ts hts i mid).mp hread
      rcases acceptSymbol_bind.mp hrest with ⟨colon, mid', rfl, hcolon, hrun⟩ | ⟨-, hrun⟩
      · obtain ⟨ws, r, stop, rfl, rfl, hstop, hr⟩ :=
          (sliceRest_eq_ok h hts.suffix.cons).mp hrun
        exact .inr ⟨vs, some i, colon, ws, stop, r, rfl, rfl, .some hi, hcolon, hstop, hr⟩
      · obtain ⟨r, rfl, hr, rfl⟩ := symbol_pure.mp hrun
        exact .inl ⟨vs, i, r, rfl, rfl, hi, hr⟩
  · rintro (⟨vs, i, r, rfl, rfl, hi, hr⟩ |
      ⟨vs, start, colon, ws, stop, r, rfl, rfl, hstart, hcolon, hstop, hr⟩)
    · refine .inr ⟨hi.next_ne (by decide) _, bind_eq_ok.mpr ⟨i, r :: rest, ?_, ?_⟩⟩
      · exact (h.expression _ hts i _).mpr ⟨vs, rfl, hi, Level.stops_before hr rfl⟩
      · exact acceptSymbol_bind.mpr (.inr ⟨by simp [hr], symbol_pure.mpr ⟨r, rfl, hr, rfl⟩⟩)
    · rcases hstart with _ | ⟨hi⟩
      · exact .inl ⟨colon, _, rfl, hcolon,
          (sliceRest_eq_ok h hts.cons).mpr ⟨ws, r, stop, rfl, rfl, hstop, hr⟩⟩
      · rename_i i
        refine .inr ⟨hi.next_ne (by decide) _,
          bind_eq_ok.mpr ⟨i, colon :: (ws ++ r :: rest), ?_, ?_⟩⟩
        · exact (h.expression _ hts i _).mpr ⟨vs, rfl, hi, Level.stops_before hcolon rfl⟩
        · exact acceptSymbol_bind.mpr (.inl ⟨colon, _, rfl, hcolon,
            (sliceRest_eq_ok h hts.suffix.cons).mpr ⟨ws, r, stop, rfl, rfl, hstop, hr⟩⟩)

end operand

/-! ### Primaries -/

section primary
variable (h : rules.Exact n) (hts : Clean n ts)
include h hts

theorem Rules.Exact.expressionsUntil {close : Symbol}
    (hclose : close = .rightParen ∨ close = .rightBracket) {xs : List Expr} {r : Token}
    (hr : r.kind = .symbol close) :
    itemsUntil close rules.expression rules.passes ts = .ok (xs, r :: rest) ↔
      ∃ us, ts = us ++ r :: rest ∧ Listed true (Derives .disjunction) us xs := by
  have hstop : continues? (.symbol close) = none := by rcases hclose with rfl | rfl <;> rfl
  have hne : close ≠ .comma := by rcases hclose with rfl | rfl <;> decide
  refine h.expression.itemsUntil (Level.stops_of_none rfl _) (Level.stops_of_none hstop _) hne
    (fun hx => hx.next_ne ?_) _ ts hts (Nat.le_trans hts.length (Nat.le_of_lt h.passes)) xs
    (r :: rest) hr
  rcases hclose with rfl | rfl <;> decide

theorem parenRest_eq_ok : parenRest rules ts = .ok (z, rest) ↔
    (∃ r, ts = r :: rest ∧ z = .tuple [] ∧ r.kind = .symbol .rightParen) ∨
    (∃ us r, ts = us ++ r :: rest ∧ Derives .disjunction us z ∧ r.kind = .symbol .rightParen) ∨
    ∃ us x comma vs xs r, ts = us ++ comma :: (vs ++ r :: rest) ∧ z = .tuple (x :: xs) ∧
      Derives .disjunction us x ∧ comma.kind = .symbol .comma ∧
      Listed true (Derives .disjunction) vs xs ∧ r.kind = .symbol .rightParen := by
  rw [parenRest, acceptSymbol_bind]
  simp only [if_true, Bool.false_eq_true, if_false, pure_eq_ok]
  constructor
  · rintro (⟨r, mid, rfl, hr, rfl, rfl⟩ | ⟨-, hrun⟩)
    · exact .inl ⟨r, rfl, rfl, hr⟩
    · obtain ⟨x, mid, hread, hrest⟩ := bind_eq_ok.mp hrun
      obtain ⟨us, rfl, hx, -⟩ := (h.expression ts hts x mid).mp hread
      rcases acceptSymbol_bind.mp hrest with ⟨comma, mid', rfl, hcomma, hrun⟩ | ⟨-, hrun⟩
      · obtain ⟨xs, mid, hitems, hclose⟩ := bind_eq_ok.mp hrun
        obtain ⟨r, rfl, hr, rfl⟩ := (symbol_pure (b := Expr.tuple (x :: xs))).mp hclose
        obtain ⟨vs, rfl, hxs⟩ := (h.expressionsUntil hts.suffix.cons (.inl rfl) hr).mp hitems
        exact .inr (.inr ⟨us, x, comma, vs, xs, r, rfl, rfl, hx, hcomma, hxs, hr⟩)
      · obtain ⟨r, rfl, hr, rfl⟩ := symbol_pure.mp hrun
        exact .inr (.inl ⟨us, r, rfl, hx, hr⟩)
  · rintro (⟨r, rfl, rfl, hr⟩ | ⟨us, r, rfl, hx, hr⟩ |
      ⟨us, x, comma, vs, xs, r, rfl, rfl, hx, hcomma, hxs, hr⟩)
    · exact .inl ⟨r, rest, rfl, hr, rfl, rfl⟩
    · refine .inr ⟨hx.next_ne (by decide) _, bind_eq_ok.mpr ⟨z, r :: rest, ?_, ?_⟩⟩
      · exact (h.expression _ hts z _).mpr ⟨us, rfl, hx, Level.stops_before hr rfl⟩
      · exact acceptSymbol_bind.mpr (.inr ⟨by simp [hr], symbol_pure.mpr ⟨r, rfl, hr, rfl⟩⟩)
    · refine .inr ⟨hx.next_ne (by decide) _, bind_eq_ok.mpr ⟨x, comma :: (vs ++ r :: rest), ?_, ?_⟩⟩
      · exact (h.expression _ hts x _).mpr ⟨us, rfl, hx, Level.stops_before hcomma rfl⟩
      · refine acceptSymbol_bind.mpr (.inl ⟨comma, _, rfl, hcomma, bind_eq_ok.mpr ?_⟩)
        exact ⟨xs, r :: rest, (h.expressionsUntil hts.suffix.cons (.inl rfl) hr).mpr ⟨vs, rfl, hxs⟩,
          (symbol_pure (b := Expr.tuple (x :: xs))).mpr ⟨r, rfl, hr, rfl⟩⟩

theorem listRest_eq_ok : listRest rules ts = .ok (z, rest) ↔
    ∃ us xs r, ts = us ++ r :: rest ∧ z = .list xs ∧ Listed true (Derives .disjunction) us xs ∧
      r.kind = .symbol .rightBracket := by
  rw [listRest, bind_eq_ok]
  constructor
  · rintro ⟨xs, mid, hitems, hclose⟩
    obtain ⟨r, rfl, hr, rfl⟩ := (symbol_pure (b := Expr.list xs)).mp hclose
    obtain ⟨us, rfl, hxs⟩ := (h.expressionsUntil hts (.inr rfl) hr).mp hitems
    exact ⟨us, xs, r, rfl, rfl, hxs, hr⟩
  · rintro ⟨us, xs, r, rfl, rfl, hxs, hr⟩
    exact ⟨xs, r :: rest, (h.expressionsUntil hts (.inr rfl) hr).mpr ⟨us, rfl, hxs⟩,
      (symbol_pure (b := Expr.list xs)).mpr ⟨r, rfl, hr, rfl⟩⟩

end primary

theorem isLiteralKind_iff {k : TokenKind} : isLiteralKind k = true ↔ k ∈ literalKinds := by
  unfold isLiteralKind
  split <;> simp_all [literalKinds]

theorem Level.primary_stops (k : TokenKind) : Level.primary.Stops k := by
  intro m hm
  unfold continues? at hm
  split at hm <;> cases hm <;> decide

theorem primary_sound (h : rules.Exact n) (hts : Clean (n + 1) ts)
    (hrun : primary rules ts = .ok (z, rest)) :
    ∃ front, ts = front ++ rest ∧ Derives .primary front z := by
  cases ts with
  | nil => cases hrun
  | cons t us =>
      have hus := hts.tail
      simp only [primary, isLiteralKind_iff] at hrun
      split_ifs at hrun with hliteral hname hparen hbracket hfun
      · cases hvalue : t.literal with
        | none =>
            rw [hvalue] at hrun
            cases hrun
        | some value =>
            rw [hvalue] at hrun
            cases hrun
            exact ⟨[t], rfl, .literal hliteral hvalue⟩
      · cases hrun
        exact ⟨[t], rfl, .var hname⟩
      · rcases (parenRest_eq_ok h hus).mp hrun with ⟨r, rfl, rfl, hr⟩ | ⟨vs, r, rfl, hx, hr⟩ |
          ⟨vs, x, comma, ws, xs, r, rfl, rfl, hx, hcomma, hxs, hr⟩
        · exact ⟨[t, r], rfl, .unit hparen hr⟩
        · exact ⟨t :: (vs ++ [r]), by simp, .group hparen hx hr⟩
        · exact ⟨t :: (vs ++ comma :: (ws ++ [r])), by simp, .tuple hparen hx hcomma hxs hr⟩
      · obtain ⟨vs, xs, r, rfl, rfl, hxs, hr⟩ := (listRest_eq_ok h hus).mp hrun
        exact ⟨t :: (vs ++ [r]), by simp, .list hbracket hxs hr⟩
      · exact absurd hfun (hts.noFun t (by simp))
      · cases hrun

theorem primary_complete (h : rules.Exact n) {front : List Token}
    (hts : Clean (n + 1) (front ++ rest)) (hz : Derives .primary front z) :
    primary rules (front ++ rest) = .ok (z, rest) := by
  cases hz with
  | tighter ht | join ht => cases ht
  | literal ht hvalue => simp [primary, isLiteralKind_iff, ht, hvalue]
  | var ht => simp [primary, ht, isLiteralKind]
  | unit hl hr =>
      have hrun := (parenRest_eq_ok h hts.tail).mpr (.inl ⟨_, rfl, rfl, hr⟩)
      simpa [primary, hl, isLiteralKind] using hrun
  | group hl hx hr =>
      have hrun := (parenRest_eq_ok h hts.tail).mpr
        (.inr (.inl ⟨_, _, (by simp : _ = _ ++ _ :: rest), hx, hr⟩))
      simpa [primary, hl, isLiteralKind] using hrun
  | tuple hl hx hcomma hxs hr =>
      have hrun := (parenRest_eq_ok h hts.tail).mpr (.inr (.inr
        ⟨_, _, _, _, _, _, (by simp : _ = _ ++ _ :: (_ ++ _ :: rest)), rfl, hx, hcomma, hxs, hr⟩))
      simpa [primary, hl, isLiteralKind] using hrun
  | list hl hxs hr =>
      have hrun := (listRest_eq_ok h hts.tail).mpr
        ⟨_, _, _, (by simp : _ = _ ++ _ :: rest), rfl, hxs, hr⟩
      simpa [primary, hl, isLiteralKind] using hrun

theorem primary_exact (h : rules.Exact n) :
    Exact (n + 1) (primary rules) (Derives .primary) Level.primary.Stops := by
  intro ts hts z rest
  constructor
  · intro hrun
    obtain ⟨front, hfront, hz⟩ := primary_sound h hts hrun
    exact ⟨front, hfront, hz, Level.primary_stops _⟩
  · rintro ⟨front, rfl, hz, -⟩
    exact primary_complete h hts hz

/-! ### Postfixes -/

theorem continues_postfixed_iff {k : TokenKind} : continues? k ≠ some .postfixed ↔
    k ≠ .symbol .leftParen ∧ k ≠ .symbol .leftBracket ∧ k ≠ .symbol .dot := by
  unfold continues?
  split <;> simp_all

theorem postfixes_succ {fuel : Nat} : postfixes rules (fuel + 1) x ts = .ok (z, rest) ↔
    (∃ l us, ts = l :: us ∧ l.kind = .symbol .leftParen ∧
      (callRest rules x >>= postfixes rules fuel) us = .ok (z, rest)) ∨
    (∃ l us, ts = l :: us ∧ l.kind = .symbol .leftBracket ∧
      (indexRest rules x >>= postfixes rules fuel) us = .ok (z, rest)) ∨
    (∃ dot name us, ts = dot :: name :: us ∧ dot.kind = .symbol .dot ∧ name.kind = .identifier ∧
      postfixes rules fuel (.attr x name.lexeme) us = .ok (z, rest)) ∨
    continues? (next ts) ≠ some .postfixed ∧ z = x ∧ rest = ts := by
  rw [postfixes, acceptSymbol_bind, continues_postfixed_iff]
  simp only [if_true, Bool.false_eq_true, if_false, acceptSymbol_bind, identifier_bind, pure_eq_ok]
  constructor
  · rintro (h | ⟨hparen, h | ⟨hbracket, ⟨dot, mid, rfl, hdot, name, us, rfl, h⟩ |
      ⟨hdot, rfl, rfl⟩⟩⟩)
    · exact .inl h
    · exact .inr (.inl h)
    · exact .inr (.inr (.inl ⟨dot, name, us, rfl, hdot, h⟩))
    · exact .inr (.inr (.inr ⟨⟨hparen, hbracket, hdot⟩, rfl, rfl⟩))
  · rintro (h | ⟨l, us, rfl, hl, h⟩ | ⟨dot, name, us, rfl, hdot, h⟩ |
      ⟨⟨hparen, hbracket, hdot⟩, rfl, rfl⟩)
    · exact .inl h
    · exact .inr ⟨by simp [hl], .inl ⟨l, us, rfl, hl, h⟩⟩
    · exact .inr ⟨by simp [hdot], .inr ⟨by simp [hdot],
        .inl ⟨dot, _, rfl, hdot, name, us, rfl, h⟩⟩⟩
    · exact .inr ⟨hparen, .inr ⟨hbracket, .inr ⟨hdot, rfl, rfl⟩⟩⟩

theorem loops_postfixes (h : rules.Exact n) :
    Loops (n + 1) .postfixed .primary (postfixes rules) := by
  refine ⟨fun _ => rfl, fun fuel x ts hts z rest => ?_⟩
  rw [postfixes_succ]
  constructor
  · rintro (⟨l, us, rfl, hl, hrun⟩ | ⟨l, us, rfl, hl, hrun⟩ |
      ⟨dot, name, us, rfl, hdot, hname, hrun⟩ | hstop)
    · obtain ⟨y, mid, hcall, hmore⟩ := bind_eq_ok.mp hrun
      obtain ⟨vs, r, as, ps, ks, rfl, rfl, has, hr, hadmits⟩ := (callRest_eq_ok h hts.tail).mp hcall
      exact .inr ⟨l :: (vs ++ [r]), mid, _, by simp, .call hl has hr hadmits,
        Level.primary_stops _, hmore⟩
    · obtain ⟨y, mid, hindex, hmore⟩ := bind_eq_ok.mp hrun
      rcases (indexRest_eq_ok h hts.tail).mp hindex with ⟨vs, i, r, rfl, rfl, hi, hr⟩ |
        ⟨vs, start, colon, ws, stop, r, rfl, rfl, hstart, hcolon, hstop, hr⟩
      · exact .inr ⟨l :: (vs ++ [r]), mid, _, by simp, .index hl hi hr,
          Level.primary_stops _, hmore⟩
      · exact .inr ⟨l :: (vs ++ colon :: (ws ++ [r])), mid, _, by simp,
          .slice hl hstart hcolon hstop hr, Level.primary_stops _, hmore⟩
    · exact .inr ⟨[dot, name], us, _, rfl, .attr hdot hname, Level.primary_stops _, hrun⟩
    · exact .inl hstop
  · rintro (hstop | ⟨us, mid, y, rfl, hstep, -, hmore⟩)
    · exact .inr (.inr (.inr hstop))
    · cases hstep with
      | join ht hop => cases hop
      | call hl has hr hadmits =>
          refine .inl ⟨_, _, rfl, hl, bind_eq_ok.mpr ⟨_, mid, ?_, hmore⟩⟩
          exact (callRest_eq_ok h hts.tail).mpr
            ⟨_, _, _, _, _, (by simp : _ = _ ++ _ :: mid), rfl, has, hr, hadmits⟩
      | index hl hi hr =>
          refine .inr (.inl ⟨_, _, rfl, hl, bind_eq_ok.mpr ⟨_, mid, ?_, hmore⟩⟩)
          exact (indexRest_eq_ok h hts.tail).mpr
            (.inl ⟨_, _, _, (by simp : _ = _ ++ _ :: mid), rfl, hi, hr⟩)
      | slice hl hstart hcolon hstop hr =>
          refine .inr (.inl ⟨_, _, rfl, hl, bind_eq_ok.mpr ⟨_, mid, ?_, hmore⟩⟩)
          exact (indexRest_eq_ok h hts.tail).mpr (.inr ⟨_, _, _, _, _, _,
            (by simp : _ = _ ++ _ :: (_ ++ _ :: mid)), rfl, hstart, hcolon, hstop, hr⟩)
      | attr hdot hname => exact .inr (.inr (.inl ⟨_, _, mid, rfl, hdot, hname, hmore⟩))

theorem postfixed_exact (h : rules.Exact n) :
    Exact (n + 1) (postfixed rules) (Derives .postfixed) Level.postfixed.Stops :=
  (loops_postfixes h).exact (primary_exact h) (.inr rfl) rfl h.passes

end Classlet.Grammar
