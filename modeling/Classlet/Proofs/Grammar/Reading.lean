import Classlet.Grammar.Parser
import Classlet.Proofs.Grammar.Derivation

/-! # When a parser succeeds

For each step that parsers are made of, a lemma says on which tokens it succeeds, with which answer
and which tokens left.  `Parser.next ts` is the kind of the token that comes next.

`Parser.Exact n p R stop` says this of a whole parser: on up to `n` tokens, `p` reads just the
fronts that `R` relates to an answer and behind which a kind of token comes that `stop` allows.
Lists of items are exact if their items are (`Exact.items`, `Exact.itemsUntil`). -/

namespace Classlet

namespace Parser

variable {α β : Type} {ts rest : List Token} {a : α} {b : β}

def next (ts : List Token) : TokenKind := (current ts).kind

@[simp] theorem next_nil : next [] = .endOfInput := rfl

@[simp] theorem next_cons (t : Token) (ts : List Token) : next (t :: ts) = t.kind := rfl

/-! ### Steps -/

theorem bind_eq_ok {p : Parser α} {f : α → Parser β} :
    (p >>= f) ts = .ok (b, rest) ↔ ∃ a mid, p ts = .ok (a, mid) ∧ f a mid = .ok (b, rest) := by
  rw [bind_apply]
  cases hp : p ts with
  | ok r =>
      constructor
      · exact fun h => ⟨r.1, r.2, rfl, h⟩
      · rintro ⟨a, mid, hr, h⟩
        cases hr
        exact h
  | error failure => simp

theorem bind_of_ok {p : Parser α} (h : p ts = .ok (a, rest)) (f : α → Parser β) :
    (p >>= f) ts = f a rest := by
  rw [bind_apply, h]

theorem pure_eq_ok {a' : α} : (pure a : Parser α) ts = .ok (a', rest) ↔ a' = a ∧ rest = ts := by
  simp [eq_comm]

theorem fail_eq_ok {fault : ParseFault} : (fail fault : Parser α) ts = .ok (a, rest) ↔ False :=
  ⟨fun h => (by cases h), False.elim⟩

theorem failAt_eq_ok {t : Token} {fault : ParseFault} :
    (failAt t fault : Parser α) ts = .ok (a, rest) ↔ False :=
  ⟨fun h => (by cases h), False.elim⟩

theorem check_bind {k : TokenKind} {f : Bool → Parser β} :
    (check k >>= f) ts = f (decide (next ts = k)) ts := rfl

theorem checkSecond_bind {k : TokenKind} {f : Bool → Parser β} :
    (checkSecond k >>= f) ts = f (decide (next ts.tail = k)) ts := rfl

theorem bind_assoc {γ : Type} (p : Parser α) (f : α → Parser β) (g : β → Parser γ) :
    (p >>= f) >>= g = p >>= fun a => f a >>= g := by
  funext ts
  simp only [bind_apply]
  cases p ts <;> rfl

theorem accept_bind {k : TokenKind} (hk : k ≠ .endOfInput) {f : Option Token → Parser β} :
    (accept k >>= f) ts = .ok (b, rest) ↔
      (∃ t mid, ts = t :: mid ∧ t.kind = k ∧ f (some t) mid = .ok (b, rest)) ∨
        next ts ≠ k ∧ f none ts = .ok (b, rest) := by
  rw [bind_apply]
  cases ts with
  | nil => simp [accept, hk.symm]
  | cons t ts =>
      by_cases h : t.kind = k
      · simp only [accept, h, if_true, next_cons, List.cons.injEq, ne_eq, not_true_eq_false,
          false_and, or_false]
        constructor
        · exact fun hf => ⟨t, ts, ⟨rfl, rfl⟩, h, hf⟩
        · rintro ⟨t', mid, ⟨rfl, rfl⟩, -, hf⟩
          exact hf
      · simp only [accept, h, if_false, next_cons, List.cons.injEq, ne_eq, not_false_eq_true,
          true_and]
        constructor
        · exact .inr
        · rintro (⟨t', mid, ⟨rfl, rfl⟩, h', -⟩ | hf)
          · exact absurd h' h
          · exact hf

theorem acceptSymbol_bind {s : Symbol} {f : Bool → Parser β} :
    (acceptSymbol s >>= f) ts = .ok (b, rest) ↔
      (∃ t mid, ts = t :: mid ∧ t.kind = .symbol s ∧ f true mid = .ok (b, rest)) ∨
        next ts ≠ .symbol s ∧ f false ts = .ok (b, rest) := by
  have h : acceptSymbol s >>= f = accept (.symbol s) >>= fun t => f t.isSome := bind_assoc ..
  rw [h]
  exact accept_bind fun h => by cases h

theorem expect_bind {k : TokenKind} (hk : k ≠ .endOfInput) {fault : ParseFault}
    {f : Token → Parser β} :
    (expect k fault >>= f) ts = .ok (b, rest) ↔
      ∃ t mid, ts = t :: mid ∧ t.kind = k ∧ f t mid = .ok (b, rest) := by
  rw [expect, bind_assoc, accept_bind hk]
  constructor
  · rintro (h | ⟨-, h⟩)
    · exact h
    · cases h
  · exact .inl

theorem symbol_bind {s : Symbol} {place : Place} {f : Token → Parser β} :
    (symbol s place >>= f) ts = .ok (b, rest) ↔
      ∃ t mid, ts = t :: mid ∧ t.kind = .symbol s ∧ f t mid = .ok (b, rest) :=
  expect_bind fun h => by cases h

theorem symbol_pure {s : Symbol} {place : Place} {b' : β} :
    (symbol s place >>= fun _ => pure b) ts = .ok (b', rest) ↔
      ∃ t, ts = t :: rest ∧ t.kind = .symbol s ∧ b' = b := by
  rw [symbol_bind]
  simp only [pure_eq_ok]
  constructor
  · rintro ⟨t, mid, rfl, ht, rfl, rfl⟩
    exact ⟨t, rfl, ht, rfl⟩
  · rintro ⟨t, rfl, ht, rfl⟩
    exact ⟨t, rest, rfl, ht, rfl, rfl⟩

theorem identifier_bind {what : Lacking} {f : Token → Parser β} :
    (identifier what >>= f) ts = .ok (b, rest) ↔
      ∃ t mid, ts = t :: mid ∧ t.kind = .identifier ∧ f t mid = .ok (b, rest) :=
  expect_bind fun h => by cases h

/-! ### Exact parsers -/

/-- At most `n` tokens, and no lambda among them. -/
structure Clean (n : Nat) (ts : List Token) : Prop where
  length : ts.length ≤ n
  noFun : ∀ t ∈ ts, t.kind ≠ .keyword .fun

theorem Clean.suffix {n : Nat} {us vs : List Token} (h : Clean n (us ++ vs)) : Clean n vs where
  length := Nat.le_trans (by simp) h.length
  noFun t ht := h.noFun t (List.mem_append_right us ht)

theorem Clean.tail {n : Nat} {t : Token} {ts : List Token} (h : Clean (n + 1) (t :: ts)) :
    Clean n ts where
  length := Nat.le_of_succ_le_succ h.length
  noFun u hu := h.noFun u (List.mem_cons_of_mem t hu)

theorem Clean.cons {n : Nat} {t : Token} {ts : List Token} (h : Clean n (t :: ts)) : Clean n ts :=
  Clean.suffix (show Clean n ([t] ++ ts) from h)

/-- On up to `n` tokens, `p` reads the fronts that `R` relates to an answer, if a kind of token that
`stop` allows comes behind. -/
def Exact (n : Nat) (p : Parser α) (R : List Token → α → Prop) (stop : TokenKind → Prop) : Prop :=
  ∀ ts, Clean n ts → ∀ a rest,
    p ts = .ok (a, rest) ↔ ∃ front, ts = front ++ rest ∧ R front a ∧ stop (next rest)

end Parser

/-! ### Lists -/

namespace Grammar

variable {α : Type} {R : List Token → α → Prop} {ts : List Token} {as : List α}

/-- A list of items is an item, or an item, a comma and a list. -/
theorem separated_iff : Separated R ts as ↔ ∃ us a, R us a ∧ ((ts = us ∧ as = [a]) ∨
    ∃ comma vs more, ts = us ++ comma :: vs ∧ as = a :: more ∧ comma.kind = .symbol .comma ∧
      Separated R vs more) := by
  constructor
  · rintro (ha | ⟨ha, hcomma, hmore⟩)
    · exact ⟨_, _, ha, .inl ⟨rfl, rfl⟩⟩
    · exact ⟨_, _, ha, .inr ⟨_, _, _, rfl, rfl, hcomma, hmore⟩⟩
  · rintro ⟨us, a, ha, ⟨rfl, rfl⟩ | ⟨comma, vs, more, rfl, rfl, hcomma, hmore⟩⟩
    · exact .one ha
    · exact .more ha hcomma hmore

/-- The same of lists that may be empty or have a comma at the end. -/
theorem listed_iff : Listed true R ts as ↔ (ts = [] ∧ as = []) ∨ ∃ us a, R us a ∧
    ((ts = us ∧ as = [a]) ∨ ∃ comma vs more, ts = us ++ comma :: vs ∧ as = a :: more ∧
      comma.kind = .symbol .comma ∧ Listed true R vs more) := by
  constructor
  · rintro (_ | hitems | ⟨-, hitems, hclosing⟩)
    · exact .inl ⟨rfl, rfl⟩
    · obtain ⟨us, a, ha, h | ⟨comma, vs, more, hts, has, hcomma, hmore⟩⟩ := separated_iff.mp hitems
      · exact .inr ⟨us, a, ha, .inl h⟩
      · exact .inr ⟨us, a, ha, .inr ⟨comma, vs, more, hts, has, hcomma, .items hmore⟩⟩
    · obtain ⟨us, a, ha, ⟨rfl, rfl⟩ | ⟨comma, vs, more, rfl, rfl, hcomma, hmore⟩⟩ :=
        separated_iff.mp hitems
      · exact .inr ⟨_, a, ha, .inr ⟨_, [], [], rfl, rfl, hclosing, .none⟩⟩
      · refine .inr ⟨us, a, ha, .inr ⟨comma, _, more, List.append_assoc .., rfl, hcomma, ?_⟩⟩
        exact .closed rfl hmore hclosing
  · rintro (⟨rfl, rfl⟩ | ⟨us, a, ha, ⟨rfl, rfl⟩ | ⟨comma, vs, more, rfl, rfl, hcomma, hmore⟩⟩)
    · exact .none
    · exact .items (.one ha)
    · rcases hmore with _ | hitems | ⟨-, hitems, hclosing⟩
      · exact .closed rfl (.one ha) hcomma
      · exact .items (.more ha hcomma hitems)
      · have h := Listed.closed rfl (.more ha hcomma hitems) hclosing
        simpa using h

/-- Without a comma at the end there is a list of items or nothing. -/
theorem listed_false_iff : Listed false R ts as ↔ (ts = [] ∧ as = []) ∨ Separated R ts as := by
  constructor
  · rintro (_ | hitems | ⟨h, -, -⟩)
    · exact .inl ⟨rfl, rfl⟩
    · exact .inr hitems
    · cases h
  · rintro (⟨rfl, rfl⟩ | hitems)
    · exact .none
    · exact .items hitems

end Grammar

namespace Parser

open Grammar

variable {α : Type} {n : Nat} {item : Parser α} {R : List Token → α → Prop}
  {stop : TokenKind → Prop}

/-- Behind an item no comma comes, or a comma and a list of items. -/
def Continued (R : List Token → α → Prop) (stop : TokenKind → Prop) (ts : List Token)
    (as : List α) (rest : List Token) : Prop :=
  (as = [] ∧ rest = ts ∧ next ts ≠ .symbol .comma) ∨ ∃ comma us, ts = comma :: (us ++ rest) ∧
    comma.kind = .symbol .comma ∧ Separated R us as ∧ stop (next rest) ∧ next rest ≠ .symbol .comma

section lists
variable (h : Exact n item R stop) (hcomma : stop (.symbol .comma))
include h hcomma

/-- An item and those behind it are a list, if those behind it are. -/
theorem Exact.items_of_moreItems {fuel : Nat}
    (hmore : ∀ ts, Clean n ts → ts.length ≤ fuel → ∀ as rest,
      moreItems item fuel ts = .ok (as, rest) ↔ Continued R stop ts as rest)
    {ts : List Token} (hts : Clean n ts) (hfuel : ts.length ≤ fuel) {as : List α}
    {rest : List Token} :
    items fuel item ts = .ok (as, rest) ↔ ∃ front, ts = front ++ rest ∧ Separated R front as ∧
      stop (next rest) ∧ next rest ≠ .symbol .comma := by
  simp only [items, bind_eq_ok, pure_eq_ok]
  constructor
  · rintro ⟨a, mid, ha, more, rest', hm, rfl, rfl⟩
    obtain ⟨us, rfl, hR, hstop⟩ := (h ts hts a mid).mp ha
    rcases (hmore mid hts.suffix (by simp at hfuel; omega) more rest).mp hm with
      ⟨rfl, rfl, hnext⟩ | ⟨comma, vs, rfl, hk, hsep, hstop', hnext⟩
    · exact ⟨us, rfl, .one hR, hstop, hnext⟩
    · exact ⟨us ++ comma :: vs, by simp, .more hR hk hsep, hstop', hnext⟩
  · rintro ⟨front, rfl, hsep, hstop, hnext⟩
    obtain ⟨us, a, hR, ⟨rfl, rfl⟩ | ⟨comma, vs, more, rfl, rfl, hk, hmore'⟩⟩ :=
      separated_iff.mp hsep
    · refine ⟨a, rest, (h _ hts a rest).mpr ⟨_, rfl, hR, hstop⟩, [], rest, ?_, rfl, rfl⟩
      exact (hmore rest hts.suffix (by simp at hfuel; omega) [] rest).mpr (.inl ⟨rfl, rfl, hnext⟩)
    · have hts' : Clean n (us ++ (comma :: (vs ++ rest))) := by simpa using hts
      refine ⟨a, comma :: (vs ++ rest), ?_, more, rest, ?_, rfl, rfl⟩
      · rw [List.append_assoc]
        exact (h _ hts' a _).mpr ⟨us, rfl, hR, by simpa [hk] using hcomma⟩
      · refine (hmore _ hts'.suffix (by simp at hfuel ⊢; omega) more rest).mpr (.inr ?_)
        exact ⟨comma, vs, rfl, hk, hmore', hstop, hnext⟩

theorem Exact.moreItems : ∀ fuel ts, Clean n ts → ts.length ≤ fuel → ∀ as rest,
    moreItems item fuel ts = .ok (as, rest) ↔ Continued R stop ts as rest
  | 0, ts, _, hfuel, as, rest => by
      obtain rfl : ts = [] := List.length_eq_zero_iff.mp (by omega)
      simp [Parser.moreItems, Continued]
  | fuel + 1, ts, hts, hfuel, as, rest => by
      have hmore : Parser.moreItems item (fuel + 1) = acceptSymbol .comma >>= fun comma =>
        if comma then items fuel item else pure [] := rfl
      rw [hmore, acceptSymbol_bind]
      simp only [if_true, Bool.false_eq_true, if_false, pure_eq_ok]
      constructor
      · rintro (⟨comma, mid, rfl, hk, hitems⟩ | ⟨hnext, rfl, rfl⟩)
        · obtain ⟨us, rfl, hsep, hstop⟩ := (h.items_of_moreItems hcomma
            (Exact.moreItems fuel) hts.cons (by simp at hfuel; omega)).mp hitems
          exact .inr ⟨comma, us, rfl, hk, hsep, hstop⟩
        · exact .inl ⟨rfl, rfl, hnext⟩
      · rintro (⟨rfl, rfl, hnext⟩ | ⟨comma, us, rfl, hk, hsep, hstop⟩)
        · exact .inr ⟨hnext, rfl, rfl⟩
        · refine .inl ⟨comma, _, rfl, hk, ?_⟩
          exact (h.items_of_moreItems hcomma (Exact.moreItems fuel) hts.cons
            (by simp at hfuel ⊢; omega)).mpr ⟨us, rfl, hsep, hstop⟩

theorem Exact.items {fuel : Nat} (hfuel : n ≤ fuel) :
    Exact n (items fuel item) (Separated R) fun k => stop k ∧ k ≠ .symbol .comma :=
  fun _ hts _ _ => h.items_of_moreItems hcomma (h.moreItems hcomma fuel) hts
    (Nat.le_trans hts.length hfuel)

/-- Items up to a closing symbol, with which no item begins. -/
theorem Exact.itemsUntil {close : Symbol} (hclose : stop (.symbol close))
    (hne : close ≠ .comma)
    (hstart : ∀ {us a}, R us a → ∀ vs, next (us ++ vs) ≠ .symbol close) :
    ∀ fuel ts, Clean n ts → ts.length ≤ fuel → ∀ as rest, next rest = .symbol close →
      (itemsUntil close item fuel ts = .ok (as, rest) ↔
        ∃ front, ts = front ++ rest ∧ Listed true R front as)
  | 0, ts, _, hfuel, as, rest, hrest => by
      obtain rfl : ts = [] := List.length_eq_zero_iff.mp (by omega)
      rw [Parser.itemsUntil, pure_eq_ok]
      constructor
      · rintro ⟨rfl, rfl⟩
        cases hrest
      · rintro ⟨front, hfront, -⟩
        obtain ⟨-, rfl⟩ := List.append_eq_nil_iff.mp hfront.symm
        cases hrest
  | fuel + 1, ts, hts, hfuel, as, rest, hrest => by
      have ih := Exact.itemsUntil hclose hne hstart fuel
      rw [Parser.itemsUntil, check_bind]
      by_cases hnext : next ts = .symbol close
      · rw [if_pos (by simpa using hnext), pure_eq_ok]
        constructor
        · rintro ⟨rfl, rfl⟩
          exact ⟨[], rfl, .none⟩
        · rintro ⟨front, rfl, hlisted⟩
          rcases listed_iff.mp hlisted with ⟨rfl, rfl⟩ | ⟨us, a, hR, hfront⟩
          · exact ⟨rfl, rfl⟩
          · rcases hfront with ⟨rfl, rfl⟩ | ⟨comma, vs, more, rfl, rfl, -⟩
            · exact absurd hnext (hstart hR rest)
            · rw [List.append_assoc] at hnext
              exact absurd hnext (hstart hR _)
      · rw [if_neg (by simpa using hnext)]
        rw [bind_eq_ok]
        simp only [acceptSymbol_bind, if_true, Bool.false_eq_true, if_false]
        simp only [bind_eq_ok, pure_eq_ok]
        constructor
        · rintro ⟨a, mid, ha, ⟨comma, mid', rfl, hk, more, rest', hmore, rfl, rfl⟩ | ⟨-, rfl, rfl⟩⟩
          · obtain ⟨us, rfl, hR, -⟩ := (h ts hts a _).mp ha
            obtain ⟨vs, rfl, hlisted⟩ :=
              (ih mid' hts.suffix.cons (by simp at hfuel; omega) more rest hrest).mp hmore
            refine ⟨us ++ comma :: vs, by simp, listed_iff.mpr (.inr ⟨us, a, hR, .inr ?_⟩)⟩
            exact ⟨comma, vs, more, rfl, rfl, hk, hlisted⟩
          · obtain ⟨us, rfl, hR, -⟩ := (h ts hts a rest).mp ha
            exact ⟨us, rfl, .items (.one hR)⟩
        · rintro ⟨front, rfl, hlisted⟩
          rcases listed_iff.mp hlisted with
            ⟨rfl, rfl⟩ | ⟨us, a, hR, ⟨rfl, rfl⟩ | ⟨comma, vs, more, rfl, rfl, hk, hmore⟩⟩
          · exact absurd hrest hnext
          · refine ⟨a, rest, (h _ hts a rest).mpr ⟨_, rfl, hR, by rwa [hrest]⟩, .inr ⟨?_, rfl, rfl⟩⟩
            simpa [hrest] using hne
          · have hts' : Clean n (us ++ (comma :: (vs ++ rest))) := by simpa using hts
            refine ⟨a, comma :: (vs ++ rest), ?_,
              .inl ⟨comma, _, rfl, hk, more, rest, ?_, rfl, rfl⟩⟩
            · rw [List.append_assoc]
              exact (h _ hts' a _).mpr ⟨us, rfl, hR, by simpa [hk] using hcomma⟩
            · exact (ih _ hts'.suffix.cons (by simp at hfuel ⊢; omega) more rest hrest).mpr
                ⟨vs, rfl, hmore⟩

end lists

end Parser

end Classlet
