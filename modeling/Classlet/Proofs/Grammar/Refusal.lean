import Classlet.Grammar.Expression
import Classlet.Proofs.Grammar.Reading

/-! # What begins no expression

`Refuses p ts` says that the parser `p` reads nothing from `ts`.  A token that begins no primary,
and is no sign and no `not`, begins no expression (`expression_refuses`).  The end mark is such a
token (`expression_refuses_end`). -/

namespace Classlet.Grammar

open Classlet.Parser

variable {rules : Rules} {ts : List Token}

def Refuses {α : Type} (p : Parser α) (ts : List Token) : Prop := ∀ a rest, p ts ≠ .ok (a, rest)

theorem Refuses.bind {α β : Type} {p : Parser α} {f : α → Parser β} (h : Refuses p ts) :
    Refuses (p >>= f) ts := by
  intro b rest hrun
  obtain ⟨a, mid, hp, -⟩ := bind_eq_ok.mp hrun
  exact h a mid hp

theorem signed_refuses (hsign : sign? (current ts).kind = none) (h : Refuses (primary rules) ts) :
    Refuses (signed rules) ts := by
  have hpower : Refuses (power rules) ts := h.bind.bind
  cases ts with
  | nil => exact hpower
  | cons t ts =>
      intro a rest hrun
      rw [signed, show sign? t.kind = none from hsign] at hrun
      exact hpower a rest hrun

theorem binary_refuses (hsign : sign? (current ts).kind = none) (h : Refuses (primary rules) ts)
    (levels : List (List BinaryOp)) : Refuses (binary rules levels) ts := by
  induction levels with
  | nil => exact signed_refuses hsign h
  | cons operators tighter ih => exact ih.bind

theorem negation_refuses (hsign : sign? (current ts).kind = none)
    (hnot : (current ts).kind ≠ .keyword .not) (h : Refuses (primary rules) ts) :
    Refuses (negation rules) ts := by
  have hbinary := binary_refuses hsign h binaryLevels
  cases ts with
  | nil => exact hbinary
  | cons t ts =>
      intro a rest hrun
      rw [negation, if_neg (show t.kind ≠ .keyword .not from hnot)] at hrun
      exact hbinary a rest hrun

/-- What no primary begins with, no expression begins with. -/
theorem expression_refuses (hsign : sign? (current ts).kind = none)
    (hnot : (current ts).kind ≠ .keyword .not) (h : Refuses (primary rules) ts) :
    Refuses (expression rules) ts := (negation_refuses hsign hnot h).bind.bind

theorem expression_refuses_end (h : (current ts).kind = .endOfInput) :
    Refuses (expression rules) ts := by
  refine expression_refuses (by rw [h]; rfl) (by rw [h]; decide) ?_
  cases ts with
  | nil => exact nofun
  | cons t ts =>
      have hkind : t.kind = .endOfInput := h
      intro a rest hrun
      simp [primary, hkind, isLiteralKind, fail_eq_ok] at hrun

end Classlet.Grammar
