import Classlet.Proofs.Grammar.Reading

/-! # One token of lookahead

Which tokens expressions begin with, and which go on with one: `Level.Stops l k` says that an
expression of level `l` ends before a token of kind `k`.  An identifier with an equals sign behind
it begins no expression that something else than an equals sign follows (`Derives.not_keyword`), so
that an argument that looks like one by name is one. -/

namespace Classlet.Grammar

open Classlet.Parser

variable {l l' : Level} {k : TokenKind} {ts : List Token} {x : Expr}

/-! ### What goes on with an expression -/

namespace Level

def rank : Level → Nat
  | disjunction => 0
  | conjunction => 1
  | negation => 2
  | comparison => 3
  | bitOr => 4
  | bitXor => 5
  | bitAnd => 6
  | shift => 7
  | sum => 8
  | product => 9
  | sign => 10
  | power => 11
  | postfixed => 12
  | primary => 13

theorem rank_inj {l m : Level} (h : l.rank = m.rank) : l = m := by
  cases l <;> cases m <;> first | rfl | cases h

theorem rank_of_tighter (h : l.tighter? = some l') : l'.rank = l.rank + 1 := by
  cases l <;> cases h <;> rfl

end Level

/-- The level of the expressions that a token goes on with: a binary operator, or what a postfix
begins with. -/
def continues? : TokenKind → Option Level
  | .keyword .or => some .disjunction
  | .keyword .and => some .conjunction
  | .symbol .equalEqual | .symbol .bangEqual | .symbol .less | .symbol .lessEqual
  | .symbol .greater | .symbol .greaterEqual => some .comparison
  | .symbol .pipe => some .bitOr
  | .symbol .caret => some .bitXor
  | .symbol .ampersand => some .bitAnd
  | .symbol .lessLess | .symbol .greaterGreater => some .shift
  | .symbol .plus | .symbol .minus => some .sum
  | .symbol .star | .symbol .slash | .symbol .percent => some .product
  | .symbol .starStar => some .power
  | .symbol .leftParen | .symbol .leftBracket | .symbol .dot => some .postfixed
  | _ => none

theorem continues_of_mem_operators {op : BinaryOp ⊕ Connective} (h : (k, op) ∈ l.operators) :
    continues? k = some l := by
  have hall : ∀ p ∈ l.operators, continues? p.1 = some l := by cases l <;> decide
  exact hall (k, op) h

theorem exists_mem_operators (h : continues? k = some l) (hl : l.operators ≠ []) :
    ∃ op, (k, op) ∈ l.operators := by
  unfold continues? at h
  split at h <;> cases h <;> simp [Level.operators] at hl ⊢

/-- An expression of level `l` ends before a token of kind `k`. -/
def Level.Stops (l : Level) (k : TokenKind) : Prop := ∀ m, continues? k = some m → m.rank < l.rank

namespace Level

theorem stops_of_none (h : continues? k = none) (l : Level) : l.Stops k := fun m hm => by
  rw [h] at hm
  cases hm

theorem stops_before {t : Token} (ht : t.kind = k) (hk : continues? k = none) :
    l.Stops (next (t :: ts)) := by
  rw [next_cons, ht]
  exact stops_of_none hk l

theorem Stops.not_continues (h : l.Stops k) : continues? k ≠ some l :=
  fun hk => Nat.lt_irrefl _ (h l hk)

theorem Stops.tighter (h : l.Stops k) (ht : l.tighter? = some l') : l'.Stops k := fun m hm => by
  have := h m hm
  rw [rank_of_tighter ht]
  omega

theorem Stops.looser (h : l'.Stops k) (ht : l.tighter? = some l') (hk : continues? k ≠ some l) :
    l.Stops k := fun m hm => by
  have hlt := h m hm
  rw [rank_of_tighter ht] at hlt
  have hne : m.rank ≠ l.rank := fun he => hk (by rw [hm, rank_inj he])
  omega

/-- What goes on with an expression does not go on with one of a tighter level. -/
theorem stops_of_continues (hk : continues? k = some l) (ht : l.tighter? = some l') :
    l'.Stops k := fun m hm => by
  obtain rfl : l = m := Option.some.inj (hk.symm.trans hm)
  rw [rank_of_tighter ht]
  omega

end Level

/-! ### What expressions begin with -/

/-- The kinds of tokens that primaries begin with. -/
def primaryBeginnings : List TokenKind :=
  literalKinds ++ [.identifier, .symbol .leftParen, .symbol .leftBracket]

/-- An expression of level `l` may begin with a token of kind `k`. -/
def Level.Begins (l : Level) (k : TokenKind) : Prop :=
  k ∈ primaryBeginnings ∨ (l.rank ≤ sign.rank ∧ ∃ op, (k, op) ∈ signs) ∨
    l.rank ≤ negation.rank ∧ k = .keyword .not

theorem Level.Begins.looser (h : l'.Begins k) (ht : l.tighter? = some l') : l.Begins k := by
  have hrank := rank_of_tighter ht
  exact h.imp_right (Or.imp (And.imp_left (by omega)) (And.imp_left (by omega)))

theorem Level.begins_primary (h : k ∈ primaryBeginnings) (l : Level) : l.Begins k := .inl h

theorem Derives.begins : ∀ {l ts x}, Derives l ts x → ∀ vs, l.Begins (next (ts ++ vs))
  | _, _, _, .tighter ht h, vs => (h.begins vs).looser ht
  | _, _, _, .join _ _ h _, vs | _, _, _, .call h _ _ _ _, vs | _, _, _, .index h _ _ _, vs
  | _, _, _, .slice h _ _ _ _ _, vs | _, _, _, .attr h _ _, vs => by
      rw [List.append_assoc]
      exact h.begins _
  | _, _, _, .power _ h _, vs => by
      rw [List.append_assoc]
      exact (h.begins _).looser rfl
  | _, _, _, .not ht _, _ => .inr (.inr ⟨Nat.le_refl _, ht⟩)
  | _, _, _, .sign ht _, _ => .inr (.inl ⟨Nat.le_refl _, _, ht⟩)
  | _, _, _, .literal ht _, _ => .inl (List.mem_append_left _ ht)
  | _, _, _, .var ht, _ => Level.begins_primary (by simp [ht, primaryBeginnings]) _
  | _, _, _, .unit hl _, _ | _, _, _, .group hl _ _, _ | _, _, _, .tuple hl _ _ _ _, _
  | _, _, _, .list hl _ _, _ => Level.begins_primary (by simp [hl, primaryBeginnings]) _

theorem Level.Begins.mem (h : l.Begins k) : k ∈ primaryBeginnings ++
    [.symbol .minus, .symbol .plus, .symbol .tilde, .keyword .not] := by
  rcases h with h | ⟨-, op, h⟩ | ⟨-, rfl⟩
  · exact List.mem_append_left _ h
  · simp only [signs, List.mem_cons, Prod.mk.injEq, List.not_mem_nil, or_false] at h
    rcases h with ⟨rfl, -⟩ | ⟨rfl, -⟩ | ⟨rfl, -⟩ <;> decide
  · decide

theorem Derives.next_ne {k : TokenKind} (h : Derives l ts x) (hk : k ∉ primaryBeginnings ++
    [.symbol .minus, .symbol .plus, .symbol .tilde, .keyword .not]) (vs : List Token) :
    next (ts ++ vs) ≠ k := fun he => hk (he ▸ (h.begins vs).mem)

/-- No expression looks like an argument by name, as long as no equals sign follows it. -/
theorem Derives.not_keyword : ∀ {l ts x}, Derives l ts x → ∀ vs, next vs ≠ .symbol .equal →
    next (ts ++ vs) = .identifier → next (ts ++ vs).tail ≠ .symbol .equal
  | _, _, _, .tighter _ h, vs, hvs => h.not_keyword vs hvs
  | _, _, _, .join (t := t) _ ht h _, vs, hvs => by
      rw [List.append_assoc]
      refine h.not_keyword _ fun he => ?_
      have hc := continues_of_mem_operators ht
      rw [show t.kind = .symbol .equal from he] at hc
      cases hc
  | _, _, _, .power ht h _, vs, _ | _, _, _, .call h ht _ _ _, vs, _
  | _, _, _, .index h ht _ _, vs, _ | _, _, _, .slice h ht _ _ _ _, vs, _
  | _, _, _, .attr h ht _, vs, _ => by
      rw [List.append_assoc]
      exact h.not_keyword _ (by simp [ht])
  | _, _, _, .not ht _, vs, _ => by simp [ht]
  | _, _, _, .sign ht _, vs, _ => by
      simp only [signs, List.mem_cons, Prod.mk.injEq, List.not_mem_nil, or_false] at ht
      rcases ht with ⟨ht, -⟩ | ⟨ht, -⟩ | ⟨ht, -⟩ <;> simp [ht]
  | _, _, _, .literal _ _, vs, hvs | _, _, _, .var _, vs, hvs => fun _ => hvs
  | _, _, _, .unit hl _, vs, _ | _, _, _, .group hl _ _, vs, _ | _, _, _, .tuple hl _ _ _ _, vs, _
  | _, _, _, .list hl _ _, vs, _ => by simp [hl]

end Classlet.Grammar
