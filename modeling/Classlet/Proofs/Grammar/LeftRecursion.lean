import Classlet.Grammar.Expression
import Classlet.Proofs.Grammar.Lookahead

/-! # Levels that are left recursive

An expression of a binary level, or one with postfixes, is an expression of the next tighter level
and any number of steps, each of which goes on with the expression so far (`Derives.iff_steps`).
That is how they are read: behind what is exact for the tighter level, a loop that takes the steps
is exact for the looser one (`Loops.exact`).  For the binary levels this is `exact_chained`. -/

namespace Classlet.Grammar

open Classlet.Parser

variable {l l' : Level} {n : Nat} {ts us vs rest : List Token} {x y z : Expr}

/-! ### Steps -/

/-- What goes on with an expression of level `l`, and the expression with it. -/
inductive Extends : Level → Expr → List Token → Expr → Prop where
  | join {l l' : Level} {vs : List Token} {t : Token} {op : BinaryOp ⊕ Connective} {x y : Expr} :
      l.tighter? = some l' → (t.kind, op) ∈ l.operators → Derives l' vs y →
      Extends l x (t :: vs) (joined op x y)
  | call {vs : List Token} {l r : Token} {x : Expr} {arguments : List (Expr ⊕ KeywordArg)}
      {positional : List Expr} {keywords : List KeywordArg} :
      l.kind = .symbol .leftParen → Listed false (Argument (Derives .disjunction)) vs arguments →
      r.kind = .symbol .rightParen → Admits arguments positional keywords →
      Extends .postfixed x (l :: (vs ++ [r])) (.call x positional keywords)
  | index {vs : List Token} {l r : Token} {x i : Expr} :
      l.kind = .symbol .leftBracket → Derives .disjunction vs i → r.kind = .symbol .rightBracket →
      Extends .postfixed x (l :: (vs ++ [r])) (.index x i)
  | slice {vs ws : List Token} {l colon r : Token} {x : Expr} {start stop : Option Expr} :
      l.kind = .symbol .leftBracket → Bound (Derives .disjunction) vs start →
      colon.kind = .symbol .colon → Bound (Derives .disjunction) ws stop →
      r.kind = .symbol .rightBracket →
      Extends .postfixed x (l :: (vs ++ colon :: (ws ++ [r]))) (.slice x start stop)
  | attr {dot name : Token} {x : Expr} :
      dot.kind = .symbol .dot → name.kind = .identifier →
      Extends .postfixed x [dot, name] (.attr x name.lexeme)

theorem Extends.begins (h : Extends l x vs y) :
    ∃ t us, vs = t :: us ∧ continues? t.kind = some l := by
  cases h with
  | join _ ht _ => exact ⟨_, _, rfl, continues_of_mem_operators ht⟩
  | call hl _ _ _ | index hl _ _ | slice hl _ _ _ _ | attr hl _ =>
      exact ⟨_, _, rfl, by rw [hl]; rfl⟩

theorem Extends.derives (h : Extends l x vs y) (hx : Derives l us x) : Derives l (us ++ vs) y := by
  cases h with
  | join ht hop hy => exact .join ht hop hx hy
  | call hl hvs hr hadmits => exact .call hx hl hvs hr hadmits
  | index hl hi hr => exact .index hx hl hi hr
  | slice hl hstart hcolon hstop hr => exact .slice hx hl hstart hcolon hstop hr
  | attr hdot hname => exact .attr hx hdot hname

/-- The levels whose expressions steps go on with. -/
def Level.Grows (l : Level) : Prop := l.operators ≠ [] ∨ l = .postfixed

/-- An expression of such a level is one of the tighter level, or its last step is undone. -/
theorem Derives.undo (hl : l.Grows) (ht : l.tighter? = some l') (h : Derives l ts x) :
    Derives l' ts x ∨
      ∃ us vs y, ts = us ++ vs ∧ vs ≠ [] ∧ Derives l us y ∧ Extends l y vs x := by
  cases h with
  | tighter ht' h =>
      obtain rfl := Option.some.inj (ht.symm.trans ht')
      exact .inl h
  | join ht' hop hx hy => exact .inr ⟨_, _, _, rfl, by simp, hx, .join ht' hop hy⟩
  | call hx hp hvs hr ha => exact .inr ⟨_, _, _, rfl, by simp, hx, .call hp hvs hr ha⟩
  | index hx hp hi hr => exact .inr ⟨_, _, _, rfl, by simp, hx, .index hp hi hr⟩
  | slice hx hp hi hc hj hr => exact .inr ⟨_, _, _, rfl, by simp, hx, .slice hp hi hc hj hr⟩
  | attr hx hd hn => exact .inr ⟨_, _, _, rfl, by simp, hx, .attr hd hn⟩
  | not | sign | power => rcases hl with hl | hl <;> first | exact absurd rfl hl | cases hl
  | literal | var | unit | group | tuple | list => cases ht

/-- Steps one after the other. -/
inductive Steps (l : Level) : Expr → List Token → Expr → Prop where
  | nil {x : Expr} : Steps l x [] x
  | cons {us vs : List Token} {x y z : Expr} :
      Extends l x us y → Steps l y vs z → Steps l x (us ++ vs) z

/-- There is no step, or a first one. -/
theorem Steps.first (h : Steps l x vs z) : (vs = [] ∧ z = x) ∨
    ∃ us ws y, vs = us ++ ws ∧ Extends l x us y ∧ Steps l y ws z := by
  cases h with
  | nil => exact .inl ⟨rfl, rfl⟩
  | cons hstep hmore => exact .inr ⟨_, _, _, rfl, hstep, hmore⟩

theorem Steps.snoc (h : Steps l x us y) (hlast : Extends l y vs z) : Steps l x (us ++ vs) z := by
  induction h with
  | nil =>
      have hone := Steps.cons hlast .nil
      simpa using hone
  | cons hstep _ ih =>
      rw [List.append_assoc]
      exact .cons hstep (ih hlast)

theorem Steps.derives (h : Steps l x vs y) (hx : Derives l us x) : Derives l (us ++ vs) y := by
  induction h generalizing us with
  | nil => simpa using hx
  | cons hstep _ ih =>
      rw [← List.append_assoc]
      exact ih (hstep.derives hx)

theorem Derives.iff_steps (hl : l.Grows) (ht : l.tighter? = some l') :
    Derives l ts x ↔ ∃ us vs y, ts = us ++ vs ∧ Derives l' us y ∧ Steps l y vs x := by
  constructor
  · intro h
    -- the last step takes tokens, so that the expression before it is shorter
    induction hn : ts.length using Nat.strongRecOn generalizing ts x with
    | _ n ih =>
        rcases h.undo hl ht with h | ⟨us, vs, y, rfl, hvs, hy, hlast⟩
        · exact ⟨ts, [], x, by simp, h, .nil⟩
        · have hlt : us.length < n := by
            have := List.length_pos_iff.mpr hvs
            simp at hn
            omega
          obtain ⟨us', vs', z, rfl, hz, hsteps⟩ := ih us.length hlt hy rfl
          exact ⟨us', vs' ++ vs, z, List.append_assoc .., hz, hsteps.snoc hlast⟩
  · rintro ⟨us, vs, y, rfl, hy, hsteps⟩
    exact hsteps.derives (.tighter ht hy)

/-- Behind an expression of the tighter level there stands a step, or what ends the looser one. -/
theorem Steps.stops (h : Steps l x vs y) (ht : l.tighter? = some l') (hrest : l.Stops (next rest)) :
    l'.Stops (next (vs ++ rest)) := by
  cases h with
  | nil => exact hrest.tighter ht
  | cons hstep _ =>
      obtain ⟨t, us, rfl, hk⟩ := hstep.begins
      exact Level.stops_of_continues hk ht

/-! ### Loops -/

/-- A loop that takes a step as long as there is one, at most as many as it is told to. -/
structure Loops (n : Nat) (l l' : Level) (loop : Nat → Expr → Parser Expr) : Prop where
  zero : ∀ x, loop 0 x = pure x
  succ : ∀ fuel x ts, Clean n ts → ∀ z rest, loop (fuel + 1) x ts = .ok (z, rest) ↔
    (continues? (next ts) ≠ some l ∧ z = x ∧ rest = ts) ∨ ∃ us mid y, ts = us ++ mid ∧
      Extends l x us y ∧ l'.Stops (next mid) ∧ loop fuel y mid = .ok (z, rest)

theorem Loops.eq_ok {loop : Nat → Expr → Parser Expr} (h : Loops n l l' loop)
    (ht : l.tighter? = some l') :
    ∀ fuel x ts, Clean n ts → ts.length ≤ fuel → l'.Stops (next ts) → ∀ z rest,
      loop fuel x ts = .ok (z, rest) ↔
        ∃ vs, ts = vs ++ rest ∧ Steps l x vs z ∧ l.Stops (next rest)
  | 0, x, ts, _, hfuel, _, z, rest => by
      obtain rfl : ts = [] := List.length_eq_zero_iff.mp (by omega)
      rw [h.zero, pure_eq_ok]
      constructor
      · rintro ⟨rfl, rfl⟩
        exact ⟨[], rfl, .nil, Level.stops_of_none rfl l⟩
      · rintro ⟨vs, hvs, hsteps, -⟩
        obtain ⟨rfl, rfl⟩ := List.append_eq_nil_iff.mp hvs.symm
        rcases hsteps.first with ⟨-, rfl⟩ | ⟨us, ws, y, hnil, hstep, -⟩
        · exact ⟨rfl, rfl⟩
        · obtain ⟨t, us', rfl, -⟩ := hstep.begins
          cases hnil
  | fuel + 1, x, ts, hts, hfuel, hstop, z, rest => by
      have ih := h.eq_ok ht fuel
      rw [h.succ fuel x ts hts]
      constructor
      · rintro (⟨hk, rfl, rfl⟩ | ⟨us, mid, y, rfl, hstep, hstop', hmore⟩)
        · exact ⟨[], rfl, .nil, hstop.looser ht hk⟩
        · have hlen : mid.length ≤ fuel := by
            obtain ⟨t, us', rfl, -⟩ := hstep.begins
            simp at hfuel
            omega
          obtain ⟨vs, rfl, hsteps, hrest⟩ := (ih y mid hts.suffix hlen hstop' z rest).mp hmore
          exact ⟨us ++ vs, by simp, .cons hstep hsteps, hrest⟩
      · rintro ⟨vs, rfl, hsteps, hrest⟩
        rcases hsteps.first with ⟨rfl, rfl⟩ | ⟨us, ws, y, rfl, hstep, hmore⟩
        · exact .inl ⟨hrest.not_continues, rfl, rfl⟩
        · have hlen : (ws ++ rest).length ≤ fuel := by
            obtain ⟨t, us', rfl, -⟩ := hstep.begins
            simp at hfuel ⊢
            omega
          rw [List.append_assoc] at hts ⊢
          have hstop' := hmore.stops ht hrest
          exact .inr ⟨us, ws ++ rest, y, rfl, hstep, hstop',
            (ih y _ hts.suffix hlen hstop' z rest).mpr ⟨ws, rfl, hmore, hrest⟩⟩

/-- A loop behind what reads the tighter level reads the looser one. -/
theorem Loops.exact {base : Parser Expr} {loop : Nat → Expr → Parser Expr} {fuel : Nat}
    (h : Loops n l l' loop) (hbase : Exact n base (Derives l') l'.Stops) (hl : l.Grows)
    (ht : l.tighter? = some l') (hfuel : n ≤ fuel) :
    Exact n (base >>= loop fuel) (Derives l) l.Stops := by
  have hloop := h.eq_ok ht fuel
  intro ts hts z rest
  rw [bind_eq_ok]
  constructor
  · rintro ⟨x, mid, hrun, hmore⟩
    obtain ⟨us, rfl, hx, hstop⟩ := (hbase ts hts x mid).mp hrun
    obtain ⟨vs, rfl, hsteps, hrest⟩ := (hloop x mid hts.suffix
      (Nat.le_trans hts.suffix.length hfuel) hstop z rest).mp hmore
    exact ⟨us ++ vs, by simp, hsteps.derives (.tighter ht hx), hrest⟩
  · rintro ⟨front, rfl, hz, hrest⟩
    obtain ⟨us, vs, x, rfl, hx, hsteps⟩ := (Derives.iff_steps hl ht).mp hz
    rw [List.append_assoc] at hts ⊢
    have hstop := hsteps.stops ht hrest
    refine ⟨x, vs ++ rest, (hbase _ hts x _).mpr ⟨us, rfl, hx, hstop⟩, ?_⟩
    exact (hloop x _ hts.suffix (Nat.le_trans hts.suffix.length hfuel) hstop z rest).mpr
      ⟨vs, rfl, hsteps, hrest⟩

/-- A step of a binary level is an operator and an operand. -/
theorem extends_join_iff (hl : l.operators ≠ []) (ht : l.tighter? = some l') :
    Extends l x vs z ↔ ∃ t op us y, vs = t :: us ∧ z = joined op x y ∧ (t.kind, op) ∈ l.operators ∧
      Derives l' us y := by
  constructor
  · intro h
    cases h with
    | join ht' hop hy =>
        obtain rfl := Option.some.inj (ht.symm.trans ht')
        exact ⟨_, _, _, _, rfl, rfl, hop, hy⟩
    | call | index | slice | attr => exact absurd rfl hl
  · rintro ⟨t, op, us, y, rfl, rfl, hop, hy⟩
    exact .join ht hop hy

/-- What operands are combined with is the table of the level. -/
def Level.Spelled (l : Level) (operator? : TokenKind → Option (Expr → Expr → Expr)) : Prop :=
  ∀ k combine, operator? k = some combine ↔ ∃ op, (k, op) ∈ l.operators ∧ combine = joined op

theorem Level.Spelled.eq_none_iff {operator? : TokenKind → Option (Expr → Expr → Expr)}
    {k : TokenKind} (h : l.Spelled operator?) (hl : l.operators ≠ []) :
    operator? k = none ↔ continues? k ≠ some l := by
  constructor
  · intro hnone hk
    obtain ⟨op, hop⟩ := exists_mem_operators hk hl
    have hsome := (h k (joined op)).mpr ⟨op, hop, rfl⟩
    rw [hnone] at hsome
    cases hsome
  · intro hk
    cases hcombine : operator? k with
    | none => rfl
    | some combine =>
        obtain ⟨op, hop, -⟩ := (h k combine).mp hcombine
        exact absurd (continues_of_mem_operators hop) hk

theorem loops_chain {operator? : TokenKind → Option (Expr → Expr → Expr)} {operand : Parser Expr}
    (hoperand : Exact n operand (Derives l') l'.Stops) (ht : l.tighter? = some l')
    (hl : l.operators ≠ []) (hop : l.Spelled operator?) :
    Loops n l l' (chain operator? operand) := by
  refine ⟨fun _ => rfl, fun fuel x ts hts z rest => ?_⟩
  simp only [extends_join_iff hl ht]
  cases ts with
  | nil =>
      have hchain : chain operator? operand (fuel + 1) x [] = .ok (x, []) := rfl
      rw [hchain]
      constructor
      · rintro ⟨⟩
        exact .inl ⟨by simp [continues?], rfl, rfl⟩
      · rintro (⟨-, rfl, rfl⟩ | ⟨us, mid, y, hnil, ⟨t, op, us', w, rfl, -⟩, -⟩)
        · rfl
        · cases hnil
  | cons t ts =>
      rw [next_cons, ← hop.eq_none_iff hl]
      simp only [chain]
      cases hk : operator? t.kind with
      | none =>
          constructor
          · rintro ⟨⟩
            exact .inl ⟨rfl, rfl, rfl⟩
          · rintro (⟨-, rfl, rfl⟩ | ⟨us, mid, y, hus, ⟨t', op, us', w, rfl, -, hmem, -⟩, -⟩)
            · rfl
            · cases hus
              have hsome := (hop _ _).mpr ⟨op, hmem, rfl⟩
              rw [hk] at hsome
              cases hsome
      | some combine =>
          obtain ⟨op, hmem, rfl⟩ := (hop _ _).mp hk
          simp only [bind_eq_ok, reduceCtorEq, false_and, false_or]
          constructor
          · rintro ⟨y, mid, hrun, hmore⟩
            obtain ⟨us, rfl, hy, hstop⟩ := (hoperand ts hts.cons y mid).mp hrun
            exact ⟨t :: us, mid, _, rfl, ⟨t, op, us, y, rfl, rfl, hmem, hy⟩, hstop, hmore⟩
          · rintro ⟨us, mid, z', hus, ⟨t', op', us', y, rfl, rfl, hmem', hy⟩, hstop, hmore⟩
            cases hus
            have hsame := (hop _ _).mpr ⟨op', hmem', rfl⟩
            rw [hk, Option.some.injEq] at hsame
            refine ⟨y, mid, (hoperand _ hts.cons y mid).mpr ⟨us', rfl, hy, hstop⟩, ?_⟩
            rw [hsame]
            exact hmore

/-- Operands joined by the operators of a level, if the operands are exact. -/
theorem exact_chained {operator? : TokenKind → Option (Expr → Expr → Expr)} {operand : Parser Expr}
    {fuel : Nat} (hoperand : Exact n operand (Derives l') l'.Stops) (ht : l.tighter? = some l')
    (hl : l.operators ≠ []) (hop : l.Spelled operator?) (hfuel : n ≤ fuel) :
    Exact n (chained fuel operator? operand) (Derives l) l.Stops :=
  (loops_chain hoperand ht hl hop).exact hoperand (.inl hl) ht hfuel

end Classlet.Grammar
