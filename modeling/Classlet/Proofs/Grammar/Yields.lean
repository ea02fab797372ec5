import Classlet.Grammar.Parser

/-! # What a parser reads

`Parser.Yields p fit good` says that from tokens that are `fit` the parser `p` reads only what is
`good`, and that the tokens it leaves are `fit` again.  There is one lemma for each way in which
parsers are put together.  Those that just take tokens off the front (`Parser.Takes`) need no lemma
of their own in `Yields.andThen`. -/

namespace Classlet

/-- From fit tokens, only what is good is read, and fit tokens are left. -/
def Parser.Yields {α : Type} (p : Parser α) (fit : Token → Prop) (good : α → Prop) : Prop :=
  ∀ ts, (∀ t ∈ ts, fit t) → ∀ a rest, p ts = .ok (a, rest) → good a ∧ ∀ t ∈ rest, fit t

namespace Parser

variable {α β : Type}

/-! ### Tokens taken off the front -/

/-- What is left is part of what was there. -/
class Takes (p : Parser α) : Prop where
  subset : ∀ ts a rest, p ts = .ok (a, rest) → rest ⊆ ts

instance (a : α) : Takes (pure a : Parser α) where
  subset := by
    rintro ts b rest ⟨⟩
    exact fun _ => id

theorem Takes.bind {p : Parser α} {f : α → Parser β} (hp : Takes p) (hf : ∀ a, Takes (f a)) :
    Takes (p >>= f) where
  subset ts b rest he := by
    rw [bind_apply] at he
    cases hrun : p ts with
    | ok r =>
        rw [hrun] at he
        exact fun _ ht => hp.subset _ _ _ hrun ((hf r.1).subset _ _ _ he ht)
    | error failure =>
        rw [hrun] at he
        cases he

instance (p : Parser α) (f : α → Parser β) [hp : Takes p] [hf : ∀ a, Takes (f a)] :
    Takes (p >>= f) := hp.bind hf

instance (t : Token) (fault : ParseFault) : Takes (failAt t fault : Parser α) :=
  ⟨fun _ _ _ he => by cases he⟩

instance (fault : ParseFault) : Takes (fail fault : Parser α) := ⟨fun _ _ _ he => by cases he⟩

instance (c : Prop) [Decidable c] (p q : Parser α) [Takes p] [Takes q] :
    Takes (if c then p else q) := by
  split <;> infer_instance

instance : Takes peek where
  subset := by
    rintro ts t rest ⟨⟩
    exact fun _ => id

instance (k : TokenKind) : Takes (check k) where
  subset := by
    rintro ts b rest ⟨⟩
    exact fun _ => id

instance (k : TokenKind) : Takes (checkSecond k) where
  subset := by
    rintro ts b rest ⟨⟩
    exact fun _ => id

instance : Takes atEnd := inferInstanceAs (Takes (check _))

instance (k : TokenKind) : Takes (accept k) where
  subset := by
    rintro (_ | ⟨t, ts⟩) a rest he
    · cases he
      exact fun _ => id
    · rw [accept] at he
      split at he <;> cases he
      · exact List.subset_cons_self t ts
      · exact fun _ => id

instance (k : TokenKind) (fault : ParseFault) : Takes (expect k fault) :=
  Takes.bind inferInstance fun t => by cases t <;> infer_instance

instance (s : Symbol) (place : Place) : Takes (symbol s place) :=
  inferInstanceAs (Takes (expect (.symbol s) _))

instance (what : Lacking) : Takes (identifier what) :=
  inferInstanceAs (Takes (expect .identifier _))

instance (s : Symbol) : Takes (acceptSymbol s) := by
  unfold acceptSymbol
  infer_instance

instance (k : Keyword) : Takes (acceptKeyword k) := by
  unfold acceptKeyword
  infer_instance

end Parser

namespace Parser.Yields

variable {α β : Type} {fit : Token → Prop} {good : α → Prop} {fine : β → Prop}

theorem pure {a : α} (h : good a) : Yields (pure a : Parser α) fit good := by
  rintro ts hts b rest ⟨⟩
  exact ⟨h, hts⟩

theorem bind {p : Parser α} {f : α → Parser β} (hp : Yields p fit good)
    (hf : ∀ a, good a → Yields (f a) fit fine) : Yields (p >>= f) fit fine := by
  intro ts hts b rest he
  rw [bind_apply] at he
  cases hrun : p ts with
  | ok r =>
      rw [hrun] at he
      obtain ⟨hgood, hrest⟩ := hp ts hts _ _ hrun
      exact hf r.1 hgood _ hrest _ _ he
  | error failure =>
      rw [hrun] at he
      cases he

theorem mono {also : α → Prop} {p : Parser α} (hp : Yields p fit good)
    (h : ∀ a, good a → also a) : Yields p fit also := fun ts hts a rest he =>
  (hp ts hts a rest he).imp (h a) id

/-- What just takes tokens does not matter. -/
theorem andThen {p : Parser α} [h : Takes p] {f : α → Parser β}
    (hf : ∀ a, Yields (f a) fit fine) : Yields (p >>= f) fit fine :=
  have hp : Yields p fit fun _ => True := fun _ hts _ _ he =>
    ⟨trivial, fun t ht => hts t (h.subset _ _ _ he ht)⟩
  hp.bind fun a _ => hf a

theorem identifier (what : Lacking) :
    Yields (identifier what) fit fun t => t.kind = .identifier ∧ fit t := by
  rintro (_ | ⟨t, ts⟩) hts a rest he
  · cases he
  · simp only [Parser.identifier, expect, bind_apply, accept] at he
    split at he
    case h_1 hrun =>
      split at hrun <;> cases hrun
      case isTrue hk =>
        cases he
        exact ⟨⟨hk, hts t List.mem_cons_self⟩, fun u hu => hts u (List.mem_cons_of_mem t hu)⟩
      case isFalse => cases he
    case h_2 => cases he

/-- The token that is looked at first is a token of the text, if nothing is read at the end. -/
theorem peekThen {p : Parser α} {f : Token → α → Parser β} (hp : Yields p fit good)
    (hend : ∀ ts, (current ts).kind = .endOfInput → ∀ a rest, p ts ≠ .ok (a, rest))
    (hf : ∀ t, fit t → t.kind ≠ .endOfInput → ∀ a, good a → Yields (f t a) fit fine) :
    Yields (peek >>= fun t => p >>= f t) fit fine := by
  intro ts hts b rest he
  replace he : (p >>= f (current ts)) ts = .ok (b, rest) := he
  obtain hkind | hkind := Decidable.em ((current ts).kind = .endOfInput)
  · rw [bind_apply] at he
    cases hrun : p ts with
    | ok r => exact absurd hrun (hend ts hkind r.1 r.2)
    | error failure =>
        rw [hrun] at he
        cases he
  · cases ts with
    | nil => exact absurd rfl hkind
    | cons t ts => exact bind hp (hf t (hts t List.mem_cons_self) hkind) _ hts _ _ he

theorem ite {c : Prop} [Decidable c] {p q : Parser α} (hp : Yields p fit good)
    (hq : Yields q fit good) : Yields (if c then p else q) fit good := by
  split
  · exact hp
  · exact hq

/-- A branch that is taken only if the condition holds, or only if it does not. -/
theorem iteOf {c : Prop} [Decidable c] {p q : Parser α} (hp : c → Yields p fit good)
    (hq : ¬ c → Yields q fit good) : Yields (if c then p else q) fit good := by
  split
  case isTrue h => exact hp h
  case isFalse h => exact hq h

theorem failAt (t : Token) (fault : ParseFault) : Yields (failAt t fault : Parser α) fit good :=
  fun _ _ _ _ he => by cases he

theorem fail (fault : ParseFault) : Yields (fail fault : Parser α) fit good :=
  fun _ _ _ _ he => by cases he

/-- Where every token is fit, there is nothing to say about what is left. -/
theorem any (p : Parser α) : Yields p (fun _ => True) fun _ => True :=
  fun _ _ _ _ _ => ⟨trivial, fun _ _ => trivial⟩

/-! ### Repetitions -/

theorem moreItems {item : Parser α} (h : Yields item fit good) : ∀ fuel,
    Yields (moreItems item fuel) fit fun as => ∀ a ∈ as, good a
  | 0 => .pure fun _ ha => by cases ha
  | fuel + 1 => .andThen fun _ => .ite
      (.bind h fun _ ha => .bind (moreItems h fuel) fun _ has =>
        .pure (List.forall_mem_cons.mpr ⟨ha, has⟩))
      (.pure fun _ ha => by cases ha)

theorem items {item : Parser α} (h : Yields item fit good) (fuel : Nat) :
    Yields (items fuel item) fit fun as => ∀ a ∈ as, good a :=
  .bind h fun _ ha => .bind (h.moreItems fuel) fun _ has =>
    .pure (List.forall_mem_cons.mpr ⟨ha, has⟩)

theorem itemsUntil {item : Parser α} {close : Symbol} (h : Yields item fit good) : ∀ fuel,
    Yields (itemsUntil close item fuel) fit fun as => ∀ a ∈ as, good a
  | 0 => .pure fun _ ha => by cases ha
  | fuel + 1 => .andThen fun _ => .ite (.pure fun _ ha => by cases ha) <|
      .bind h fun _ ha => .andThen fun _ => .ite
        (.bind (itemsUntil h fuel) fun _ has => .pure (List.forall_mem_cons.mpr ⟨ha, has⟩))
        (.pure (List.forall_mem_singleton.mpr ha))

theorem chain {operator? : TokenKind → Option (α → α → α)} {operand : Parser α}
    (h : Yields operand fit good)
    (hjoin : ∀ {k join}, operator? k = some join → ∀ {a b}, good a → good b → good (join a b)) :
    ∀ fuel {left}, good left → Yields (chain operator? operand fuel left) fit good
  | 0, _, hleft => .pure hleft
  | fuel + 1, left, hleft => fun ts hts b rest he => by
      unfold Parser.chain at he
      split at he
      case h_1 =>
        cases he
        exact ⟨hleft, hts⟩
      case h_2 t ts =>
        split at he
        case h_1 join hop =>
          have hmore : Yields (do Parser.chain operator? operand fuel (join left (← operand)))
              fit good := .bind h fun b hb => chain h hjoin fuel (hjoin hop hleft hb)
          exact hmore _ (List.forall_mem_cons.mp hts).2 _ _ he
        case h_2 =>
          cases he
          exact ⟨hleft, hts⟩

theorem chained {operator? : TokenKind → Option (α → α → α)} {operand : Parser α}
    (h : Yields operand fit good)
    (hjoin : ∀ {k join}, operator? k = some join → ∀ {a b}, good a → good b → good (join a b))
    (fuel : Nat) : Yields (chained fuel operator? operand) fit good :=
  .bind h fun _ ha => chain h hjoin fuel ha

end Parser.Yields

end Classlet
