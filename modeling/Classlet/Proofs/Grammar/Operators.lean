import Classlet.Grammar.Statement
import Classlet.Proofs.Grammar.Brackets

/-! # Operators

From postfixes up to `or`, each level is exact if the tighter one is.  A level adds a power, signs
or `not` before an operand (`exact_prefixed`), or operands joined from the left.  So the rules for
texts of one more token are exact if the rules they refer back to are, and the rules of whole texts
are exact by induction on the number of tokens (`exact_rulesAt`). -/

namespace Classlet

/-- The symbol an operator is written as. -/
def BinaryOp.token : BinaryOp → Symbol
  | .add => .plus
  | .sub => .minus
  | .mul => .star
  | .div => .slash
  | .mod => .percent
  | .pow => .starStar
  | .shl => .lessLess
  | .shr => .greaterGreater
  | .bitAnd => .ampersand
  | .bitOr => .pipe
  | .bitXor => .caret
  | .eq => .equalEqual
  | .ne => .bangEqual
  | .lt => .less
  | .le => .lessEqual
  | .gt => .greater
  | .ge => .greaterEqual

theorem BinaryOp.ofToken_eq_some_iff {s : Symbol} {op : BinaryOp} :
    BinaryOp.ofToken? s = some op ↔ s = op.token := by
  constructor
  · intro h
    cases s <;> cases h <;> rfl
  · rintro rfl
    cases op <;> rfl

namespace Grammar

open Classlet.Parser

variable {l l' : Level} {n : Nat} {rules : Rules} {k : TokenKind} {ts : List Token} {z : Expr}

/-! ### Powers -/

/-- No token goes on with an expression just because it has signs or a `not`. -/
theorem continues_ne_some (h : l.operators = []) (hpower : l ≠ .power) (hbehind : l ≠ .postfixed) :
    continues? k ≠ some l := by
  intro hk
  unfold continues? at hk
  split at hk <;> cases hk <;> contradiction

/-- Such an expression ends where one of the tighter level does. -/
theorem stops_iff (ht : l.tighter? = some l') (hl : ∀ k, continues? k ≠ some l) :
    l.Stops k ↔ l'.Stops k :=
  ⟨fun h => h.tighter ht, fun h => h.looser ht (hl k)⟩

theorem continues_power_iff : continues? k ≠ some .power ↔ k ≠ .symbol .starStar := by
  unfold continues?
  split <;> simp_all

theorem sign_stops_iff : Level.sign.Stops k ↔ Level.power.Stops k :=
  stops_iff rfl fun _ => continues_ne_some rfl (by decide) (by decide)

theorem power_exact (h : rules.Exact n) :
    Exact (n + 1) (power rules) (Derives .power) Level.power.Stops := by
  have hbase := postfixed_exact h
  intro ts hts z rest
  rw [power, bind_eq_ok]
  simp only [acceptSymbol_bind, if_true, Bool.false_eq_true, if_false]
  simp only [bind_eq_ok, pure_eq_ok]
  constructor
  · rintro ⟨x, mid, hleft, ⟨t, mid', rfl, ht, y, _, hright, rfl, rfl⟩ | ⟨hnext, rfl, rfl⟩⟩
    · obtain ⟨us, rfl, hx, -⟩ := (hbase ts hts x _).mp hleft
      obtain ⟨vs, rfl, hy, hstop⟩ := (h.signed mid' hts.suffix.tail y _).mp hright
      exact ⟨us ++ t :: vs, by simp, .power ht hx hy, sign_stops_iff.mp hstop⟩
    · obtain ⟨us, rfl, hx, hstop⟩ := (hbase ts hts z _).mp hleft
      exact ⟨us, rfl, .tighter rfl hx, hstop.looser rfl (continues_power_iff.mpr hnext)⟩
  · rintro ⟨front, rfl, hz, hstop⟩
    cases hz with
    | tighter ht hx =>
        cases ht
        exact ⟨z, rest, (hbase _ hts z _).mpr ⟨front, rfl, hx, hstop.tighter rfl⟩,
          .inr ⟨continues_power_iff.mp hstop.not_continues, rfl, rfl⟩⟩
    | join ht hop => cases hop
    | power ht hx hy =>
        rename_i t us vs x y
        rw [List.append_assoc] at hts ⊢
        refine ⟨x, t :: (vs ++ rest), (hbase _ hts x _).mpr ⟨us, rfl, hx, ?_⟩, .inl ?_⟩
        · rw [next_cons, ht]
          exact Level.stops_of_continues rfl rfl
        · exact ⟨t, _, rfl, ht, y, rest,
            (h.signed _ hts.suffix.tail y _).mpr ⟨vs, rfl, hy, sign_stops_iff.mpr hstop⟩, rfl, rfl⟩

/-! ### Signs and `not` -/

theorem signed_cons {t : Token} {op : UnaryOp} (h : sign? t.kind = some op)
    (ts : List Token) :
    signed rules (t :: ts) = (signed rules >>= fun e => pure (.unary op e)) ts := by
  rw [signed, h, bind_apply]
  cases signed rules ts <;> rfl

theorem negation_cons {t : Token} (h : t.kind = .keyword .not) (ts : List Token) :
    negation rules (t :: ts) = (negation rules >>= fun e => pure (.not e)) ts := by
  rw [negation, if_pos h, bind_apply]
  cases negation rules ts <;> rfl

section operand
variable {p tight : Parser Expr} (op? : TokenKind → Option (Expr → Expr))
  (htight : Exact n tight (Derives l') l'.Stops) (ht : l.tighter? = some l')
  (hsilent : ∀ k, continues? k ≠ some l)
  (hderives : ∀ ts z, Derives l ts z ↔ Derives l' ts z ∨ ∃ t us op x, ts = t :: us ∧
    op? t.kind = some op ∧ z = op x ∧ Derives l us x)
include htight ht hsilent hderives

theorem operand_eq_ok {rest : List Token} (hts : Clean n ts)
    (hnone : ∀ t us, ts = t :: us → op? t.kind = none) :
    tight ts = .ok (z, rest) ↔
      ∃ front, ts = front ++ rest ∧ Derives l front z ∧ l.Stops (next rest) := by
  rw [htight ts hts]
  constructor
  · rintro ⟨front, rfl, hx, hstop⟩
    exact ⟨front, rfl, (hderives _ _).mpr (.inl hx), (stops_iff ht hsilent).mpr hstop⟩
  · rintro ⟨front, rfl, hz, hstop⟩
    rcases (hderives _ _).mp hz with hx | ⟨t, us, op, x, rfl, hop, -⟩
    · exact ⟨front, rfl, hx, (stops_iff ht hsilent).mp hstop⟩
    · rw [hnone t (us ++ rest) rfl] at hop
      cases hop

/-- What may stand before an operand any number of times, if no operand begins with it. -/
theorem exact_prefixed (hbegins : ∀ k, l'.Begins k → op? k = none) (hnil : p [] = tight [])
    (hcons : ∀ t ts, p (t :: ts) = match op? t.kind with
      | some op => (p >>= fun x => pure (op x)) ts
      | none => tight (t :: ts)) :
    Exact n p (Derives l) l.Stops := by
  intro ts hts z rest
  induction ts generalizing z with
  | nil =>
      rw [hnil]
      exact operand_eq_ok op? htight ht hsilent hderives hts fun _ _ h => by cases h
  | cons t ts ih =>
      rw [hcons]
      cases hop : op? t.kind with
      | none =>
          refine operand_eq_ok op? htight ht hsilent hderives hts ?_
          rintro t' us ⟨⟩
          exact hop
      | some op =>
          simp only [bind_eq_ok, pure_eq_ok]
          constructor
          · rintro ⟨x, mid, hrun, rfl, rfl⟩
            obtain ⟨us, rfl, hx, hstop⟩ := (ih hts.cons x).mp hrun
            exact ⟨t :: us, rfl, (hderives _ _).mpr (.inr ⟨t, us, op, x, rfl, hop, rfl, hx⟩), hstop⟩
          · rintro ⟨front, hfront, hz, hstop⟩
            rcases (hderives _ _).mp hz with hx | ⟨t', us, op', x, rfl, hop', rfl, hx⟩
            · have hnone := hbegins _ (hx.begins rest)
              rw [← hfront, next_cons, hop] at hnone
              cases hnone
            · cases hfront
              obtain rfl : op = op' := Option.some.inj (hop.symm.trans hop')
              exact ⟨x, rest, (ih hts.cons x).mpr ⟨us, rfl, hx, hstop⟩, rfl, rfl⟩

end operand

theorem sign_eq_some_iff {op : UnaryOp} : sign? k = some op ↔ (k, op) ∈ signs := by
  simp only [signs, List.mem_cons, Prod.mk.injEq, List.not_mem_nil, or_false]
  constructor
  · intro h
    unfold sign? at h
    split at h <;> cases h <;> simp
  · rintro (⟨rfl, rfl⟩ | ⟨rfl, rfl⟩ | ⟨rfl, rfl⟩) <;> rfl

def signed? (k : TokenKind) : Option (Expr → Expr) := (sign? k).map Expr.unary

theorem Derives.sign_iff : Derives .sign ts z ↔ Derives .power ts z ∨ ∃ t us op x, ts = t :: us ∧
    signed? t.kind = some op ∧ z = op x ∧ Derives .sign us x := by
  constructor
  · intro h
    cases h with
    | tighter ht h =>
        cases ht
        exact .inl h
    | join _ hop => cases hop
    | sign hop hx =>
        exact .inr ⟨_, _, _, _, rfl, by rw [signed?, sign_eq_some_iff.mpr hop]; rfl, rfl, hx⟩
  · rintro (h | ⟨t, us, op, x, rfl, hop, rfl, hx⟩)
    · exact .tighter rfl h
    · obtain ⟨op, hsign, rfl⟩ := Option.map_eq_some_iff.mp hop
      exact .sign (sign_eq_some_iff.mp hsign) hx

theorem signed_exact (h : rules.Exact n) :
    Exact (n + 1) (signed rules) (Derives .sign) Level.sign.Stops := by
  refine exact_prefixed signed? (power_exact h) rfl
    (fun _ => continues_ne_some rfl (by decide) (by decide)) (fun _ _ => Derives.sign_iff) ?_ rfl ?_
  case refine_1 =>
    rintro k (hk | ⟨hrank, -⟩ | ⟨hrank, -⟩)
    · have hnone : ∀ k ∈ primaryBeginnings, sign? k = none := by decide
      rw [signed?, hnone k hk]
      rfl
    · exact absurd hrank (by decide)
    · exact absurd hrank (by decide)
  case refine_2 =>
    intro t ts
    rw [signed?]
    cases hop : sign? t.kind with
    | none =>
        rw [signed, hop]
        rfl
    | some op => exact signed_cons hop ts

/-- What a `not` does to its operand. -/
def negated? (k : TokenKind) : Option (Expr → Expr) :=
  if k = .keyword .not then some .not else none

theorem Derives.negation_iff : Derives .negation ts z ↔ Derives .comparison ts z ∨
    ∃ t us op x, ts = t :: us ∧ negated? t.kind = some op ∧ z = op x ∧ Derives .negation us x := by
  constructor
  · intro h
    cases h with
    | tighter ht h =>
        cases ht
        exact .inl h
    | join _ hop => cases hop
    | not ht hx => exact .inr ⟨_, _, _, _, rfl, if_pos ht, rfl, hx⟩
  · rintro (h | ⟨t, us, op, x, rfl, hop, rfl, hx⟩)
    · exact .tighter rfl h
    · rw [negated?] at hop
      split at hop
      case isTrue ht =>
        cases hop
        exact .not ht hx
      case isFalse => cases hop

/-! ### Binary levels -/

theorem spelled_binaryOn {ops : List BinaryOp}
    (h : l.operators = ops.map fun op => (.symbol op.token, .inl op)) :
    l.Spelled (binaryOn ops) := by
  intro k combine
  rw [h]
  constructor
  · intro hk
    unfold binaryOn at hk
    split at hk
    case h_1 s =>
      split at hk
      case h_1 op hop =>
        split at hk
        case isTrue hmem =>
          cases hk
          obtain rfl := BinaryOp.ofToken_eq_some_iff.mp hop
          exact ⟨.inl op, List.mem_map.mpr ⟨op, by simpa using hmem, rfl⟩, rfl⟩
        case isFalse => cases hk
      case h_2 => cases hk
    case h_2 => cases hk
  · rintro ⟨op, hop, rfl⟩
    obtain ⟨op, hmem, ⟨⟩⟩ := List.mem_map.mp hop
    rw [binaryOn, BinaryOp.ofToken_eq_some_iff.mpr rfl]
    simp [hmem, joined]

theorem spelled_logicalOn {word : Keyword} {op : Connective}
    (h : l.operators = [(.keyword word, .inr op)]) : l.Spelled (logicalOn word op) := by
  intro k combine
  rw [h, logicalOn]
  constructor
  · intro hk
    split at hk
    case isTrue ht =>
      cases hk
      exact ⟨.inr op, by simp [ht], rfl⟩
    case isFalse => cases hk
  · rintro ⟨op', hop, rfl⟩
    obtain ⟨rfl, rfl⟩ : k = .keyword word ∧ op' = .inr op := by simpa using hop
    simp [joined]

theorem exact_binary (l : Level) (ops : List BinaryOp) {levels : List (List BinaryOp)}
    (h : Exact n (binary rules levels) (Derives l') l'.Stops) (ht : l.tighter? = some l')
    (hops : l.operators = ops.map fun op => (.symbol op.token, .inl op)) (hl : ops ≠ [])
    (hn : n ≤ rules.passes) : Exact n (binary rules (ops :: levels)) (Derives l) l.Stops :=
  exact_chained h ht (by simpa [hops] using hl) (spelled_binaryOn hops) hn

theorem comparison_exact (h : rules.Exact n) :
    Exact (n + 1) (binary rules binaryLevels) (Derives .comparison) Level.comparison.Stops := by
  have hsign : Exact (n + 1) (binary rules []) (Derives .sign) Level.sign.Stops := signed_exact h
  have hproduct := exact_binary .product [.mul, .div, .mod] hsign rfl rfl (by decide) h.passes
  have hsum := exact_binary .sum [.add, .sub] hproduct rfl rfl (by decide) h.passes
  have hshift := exact_binary .shift [.shl, .shr] hsum rfl rfl (by decide) h.passes
  have hbitAnd := exact_binary .bitAnd [.bitAnd] hshift rfl rfl (by decide) h.passes
  have hbitXor := exact_binary .bitXor [.bitXor] hbitAnd rfl rfl (by decide) h.passes
  have hbitOr := exact_binary .bitOr [.bitOr] hbitXor rfl rfl (by decide) h.passes
  exact exact_binary .comparison [.eq, .ne, .lt, .le, .gt, .ge] hbitOr rfl rfl (by decide) h.passes

theorem negation_exact (h : rules.Exact n) :
    Exact (n + 1) (negation rules) (Derives .negation) Level.negation.Stops := by
  refine exact_prefixed negated? (comparison_exact h) rfl
    (fun _ => continues_ne_some rfl (by decide) (by decide)) (fun _ _ => Derives.negation_iff) ?_
    rfl ?_
  case refine_1 =>
    rintro k (hk | ⟨-, op, hk⟩ | ⟨hrank, -⟩)
    · exact (by decide : ∀ k ∈ primaryBeginnings, negated? k = none) k hk
    · exact (by decide : ∀ p ∈ signs, negated? p.1 = none) (k, op) hk
    · exact absurd hrank (by decide)
  case refine_2 =>
    intro t ts
    rw [negated?]
    by_cases hnot : t.kind = .keyword .not
    · rw [if_pos hnot]
      exact negation_cons hnot ts
    · rw [if_neg hnot, negation, if_neg hnot]

theorem expression_exact (h : rules.Exact n) :
    Exact (n + 1) (expression rules) (Derives .disjunction) Level.disjunction.Stops := by
  have hconjunction : Exact (n + 1) (conjunction rules) (Derives .conjunction) _ :=
    exact_chained (negation_exact h) rfl (by decide) (spelled_logicalOn rfl) h.passes
  exact exact_chained hconjunction rfl (by decide) (spelled_logicalOn rfl) h.passes

/-! ### Whole texts -/

theorem exact_rulesAt {passes : Nat} : ∀ {n}, n < passes → (rulesAt passes n).Exact n
  | 0, hn => by
      have hnever : ∀ {l ts z rest}, Clean 0 ts →
          ((fail (.lacking .expression) : Parser Expr) ts = .ok (z, rest) ↔
            ∃ front, ts = front ++ rest ∧ Derives l front z ∧ l.Stops (next rest)) := by
        intro l ts z rest hts
        obtain rfl : ts = [] := List.length_eq_zero_iff.mp (Nat.le_zero.mp hts.length)
        rw [fail_eq_ok]
        refine iff_of_false id ?_
        rintro ⟨front, hfront, hz, -⟩
        have hne := hz.next_ne (k := .endOfInput) (by decide) rest
        rw [← hfront] at hne
        exact hne rfl
      exact ⟨hn, fun _ hts _ _ => hnever hts, fun _ hts _ _ => hnever hts⟩
  | n + 1, hn =>
      have h := exact_rulesAt (Nat.lt_of_succ_lt hn)
      ⟨hn, expression_exact h, signed_exact h⟩

end Grammar

end Classlet
