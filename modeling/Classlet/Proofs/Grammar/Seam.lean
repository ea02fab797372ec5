import Classlet.Proofs.Grammar.Reading
import Classlet.Proofs.Token.Joined

/-! # Parsers at a seam

A text stands alone before its end mark, or it is joined to another one that stands behind it.  A
`Seam` says what stands behind in both cases and how far the joined text is moved down.

`Seam.Carries n reach f p q` says that `q` reads off a joined text of up to `n` tokens what `p`
reads off the text alone, with `f` applied to it.  `Reach` says in which cases: a parser that has
looked at the end of its text may go another way where more text follows.  There is one lemma for
each way in which parsers are put together. -/

namespace Classlet.Parser

open Grammar

variable {α β γ δ : Type}

/-- The kinds of tokens that go on with a statement which could also end before them, or that make
a name and an argument of it. -/
def seamContinuations : List TokenKind :=
  [.keyword .elif, .keyword .else, .keyword .catch, .symbol .equal]

/-- What stands behind a text: the end mark if it stands alone, or more tokens if it is moved down
by a number of lines. -/
structure Seam where
  lines : UInt32
  mark : Token
  behind : List Token
  mark_kind : mark.kind = .endOfInput
  fresh : next behind ∉ seamContinuations

/-- When a parser reads the same at both ends. -/
inductive Reach where
  /-- If it leaves tokens of its own text. -/
  | loose
  /-- Always. -/
  | firm
  /-- Always, and it takes a token. -/
  | closing
  deriving DecidableEq

/-- What is left to show behind a token that was taken. -/
def Reach.behindToken : Reach → Reach
  | .closing => .firm
  | reach => reach

theorem Reach.of_behindToken {reach : Reach} (h : reach.behindToken = .loose) : reach = .loose := by
  cases reach <;> cases h
  rfl

namespace Seam

variable (c : Seam)

/-- Tokens of a text that stands alone. -/
def alone (us : List Token) : List Token := us ++ [c.mark]

/-- Tokens of the text when more stands behind it. -/
def joined (us : List Token) : List Token := us.map (Token.moved c.lines) ++ c.behind

@[simp] theorem alone_cons (t : Token) (us : List Token) :
    c.alone (t :: us) = t :: c.alone us := rfl

@[simp] theorem joined_cons (t : Token) (us : List Token) :
    c.joined (t :: us) = t.moved c.lines :: c.joined us := rfl

@[simp] theorem alone_nil : c.alone [] = [c.mark] := rfl

@[simp] theorem joined_nil : c.joined [] = c.behind := rfl

/-- On the tokens `us`, `q` reads what `p` reads. -/
def Agree (us : List Token) (reach : Reach) (f : α → β) (p : Parser α) (q : Parser β) : Prop :=
  ∀ a rest, p (c.alone us) = .ok (a, rest) → ∃ vs, vs <:+ us ∧ rest = c.alone vs ∧
    (reach = .closing → vs.length < us.length) ∧
      ((reach = .loose → vs ≠ []) → q (c.joined us) = .ok (f a, c.joined vs))

/-- On up to `n` tokens, `q` reads what `p` reads. -/
def Carries (n : Nat) (reach : Reach) (f : α → β) (p : Parser α) (q : Parser β) : Prop :=
  ∀ us : List Token, us.length ≤ n → c.Agree us reach f p q

variable {c} {n m : Nat} {us : List Token} {reach : Reach} {f : α → β} {g : γ → δ} {p : Parser α}
  {q : Parser β} {k : α → Parser γ} {l : β → Parser δ}

/-! ### Weaker statements -/

theorem Agree.firm (h : c.Agree us .closing f p q) : c.Agree us .firm f p q := by
  intro a rest hrun
  obtain ⟨vs, hvs, hrest, -, hq⟩ := h a rest hrun
  exact ⟨vs, hvs, hrest, nofun, fun _ => hq nofun⟩

theorem Agree.loose (h : c.Agree us .firm f p q) : c.Agree us .loose f p q := by
  intro a rest hrun
  obtain ⟨vs, hvs, hrest, -, hq⟩ := h a rest hrun
  exact ⟨vs, hvs, hrest, nofun, fun _ => hq nofun⟩

theorem Carries.firm (h : c.Carries n .closing f p q) : c.Carries n .firm f p q :=
  fun us hus => (h us hus).firm

theorem Carries.loose (h : c.Carries n .firm f p q) : c.Carries n .loose f p q :=
  fun us hus => (h us hus).loose

theorem Carries.mono (h : c.Carries n reach f p q) (hm : m ≤ n) : c.Carries m reach f p q :=
  fun us hus => h us (Nat.le_trans hus hm)

/-! ### One after the other -/

theorem Carries.bind (hp : c.Carries n reach f p q)
    (hk : ∀ a, c.Carries n reach g (k a) (l (f a))) :
    c.Carries n reach g (p >>= k) (q >>= l) := by
  intro us hus b rest hrun
  obtain ⟨a, mid, hrunp, hrunk⟩ := bind_eq_ok.mp hrun
  obtain ⟨vs, hvs, rfl, hclosing, hq⟩ := hp us hus a mid hrunp
  obtain ⟨ws, hws, rfl, hclosing', hl⟩ :=
    hk a vs (Nat.le_trans hvs.length_le hus) b rest hrunk
  refine ⟨ws, hws.trans hvs, rfl, fun hr => ?_, fun hr => ?_⟩
  · exact Nat.lt_of_lt_of_le (hclosing' hr) hvs.length_le
  · have hvs' : reach = .loose → vs ≠ [] := fun hl hnil => hr hl (List.suffix_nil.mp (hnil ▸ hws))
    exact bind_eq_ok.mpr ⟨f a, c.joined vs, hq hvs', hl hr⟩

/-- What takes a token behind what went before settles how that went. -/
theorem Carries.thenClosing (hp : c.Carries n reach f p q)
    (hk : ∀ a, c.Carries n .closing g (k a) (l (f a))) :
    c.Carries n .closing g (p >>= k) (q >>= l) := by
  intro us hus b rest hrun
  obtain ⟨a, mid, hrunp, hrunk⟩ := bind_eq_ok.mp hrun
  obtain ⟨vs, hvs, rfl, -, hq⟩ := hp us hus a mid hrunp
  obtain ⟨ws, hws, rfl, hclosing, hl⟩ := hk a vs (Nat.le_trans hvs.length_le hus) b rest hrunk
  have hlength := hclosing rfl
  have hne : vs ≠ [] := by
    rintro rfl
    cases hlength
  refine ⟨ws, hws.trans hvs, rfl, fun _ => Nat.lt_of_lt_of_le hlength hvs.length_le, fun _ => ?_⟩
  exact bind_eq_ok.mpr ⟨f a, c.joined vs, hq fun _ => hne, hl nofun⟩

theorem Carries.closingThen (hp : c.Carries n .closing f p q)
    (hk : ∀ a, c.Carries n .firm g (k a) (l (f a))) :
    c.Carries n .closing g (p >>= k) (q >>= l) := by
  intro us hus b rest hrun
  obtain ⟨a, mid, hrunp, hrunk⟩ := bind_eq_ok.mp hrun
  obtain ⟨vs, hvs, rfl, hclosing, hq⟩ := hp us hus a mid hrunp
  obtain ⟨ws, hws, rfl, -, hl⟩ := hk a vs (Nat.le_trans hvs.length_le hus) b rest hrunk
  refine ⟨ws, hws.trans hvs, rfl, fun _ => ?_, fun _ => ?_⟩
  · exact Nat.lt_of_le_of_lt hws.length_le (hclosing rfl)
  · exact bind_eq_ok.mpr ⟨f a, c.joined vs, hq nofun, hl nofun⟩

theorem Carries.pure {a : α} {b : β} (h : b = f a) :
    c.Carries n .firm f (pure a) (pure b) := by
  rintro us - a' rest hrun
  obtain ⟨rfl, rfl⟩ := pure_eq_ok.mp hrun
  exact ⟨us, List.suffix_refl us, rfl, nofun, fun _ => by rw [h]; rfl⟩

theorem Carries.never (h : ∀ ts a rest, p ts ≠ .ok (a, rest)) : c.Carries n reach f p q :=
  fun _ _ a rest hrun => absurd hrun (h _ a rest)

theorem Carries.fail (fault : ParseFault) : c.Carries n reach f (fail fault) q :=
  .never fun _ _ _ => nofun

theorem Carries.failAt (t : Token) (fault : ParseFault) :
    c.Carries n reach f (failAt t fault) q :=
  .never fun _ _ _ => nofun

theorem Carries.ite {b : Bool} {p' : Parser α} {q' : Parser β}
    (ht : b = true → c.Carries n reach f p q) (hf : b = false → c.Carries n reach f p' q') :
    c.Carries n reach f (if b then p else p') (if b then q else q') := by
  cases b with
  | true => exact ht rfl
  | false => exact hf rfl

/-! ### Single tokens -/

/-- A parser that does not take the end mark, on no other tokens. -/
theorem Agree.atEnd (h : ∀ a rest, p [c.mark] = .ok (a, rest) → rest = [c.mark]) :
    c.Agree [] .loose f p q := by
  intro a rest hrun
  exact ⟨[], List.suffix_refl [], h a rest hrun, nofun, fun hr => absurd rfl (hr rfl)⟩

/-- At the end it does not matter what the other one reads. -/
theorem Agree.congrEnd {p' : Parser α} {q' : Parser β} (h : c.Agree [] reach f p' q')
    (hreach : reach ≠ .firm) (hp : p [c.mark] = p' [c.mark]) : c.Agree [] reach f p q := by
  intro a rest hrun
  rw [alone_nil, hp] at hrun
  obtain ⟨vs, hvs, rfl, hclosing, -⟩ := h a rest hrun
  obtain rfl := List.suffix_nil.mp hvs
  cases reach with
  | loose => exact ⟨[], hvs, rfl, nofun, fun hr => absurd rfl (hr rfl)⟩
  | firm => exact absurd rfl hreach
  | closing => cases hclosing rfl

theorem Agree.map (h : c.Agree us reach f p q) {k : α → γ} {l : β → δ}
    (hkl : ∀ a, l (f a) = g (k a)) :
    c.Agree us reach g (p >>= fun a => pure (k a)) (q >>= fun b => pure (l b)) := by
  intro b rest hrun
  obtain ⟨a, mid, hrunp, hpure⟩ := bind_eq_ok.mp hrun
  obtain ⟨rfl, rfl⟩ := pure_eq_ok.mp hpure
  obtain ⟨vs, hvs, rfl, hclosing, hq⟩ := h a rest hrunp
  refine ⟨vs, hvs, rfl, hclosing, fun hr => ?_⟩
  exact bind_eq_ok.mpr ⟨f a, c.joined vs, hq hr, pure_eq_ok.mpr ⟨(hkl a).symm, rfl⟩⟩

/-- Behind a token. -/
theorem Agree.cons {t : Token} {p' : Parser α} {q' : Parser β}
    (hp : p (t :: c.alone us) = p' (c.alone us))
    (hq : q (t.moved c.lines :: c.joined us) = q' (c.joined us))
    (h : c.Agree us reach.behindToken f p' q') : c.Agree (t :: us) reach f p q := by
  intro a rest hrun
  rw [alone_cons, hp] at hrun
  obtain ⟨vs, hvs, rfl, -, hq'⟩ := h a rest hrun
  refine ⟨vs, hvs.trans (List.suffix_cons t us), rfl, fun _ => ?_, fun hr => ?_⟩
  · exact Nat.lt_succ_of_le hvs.length_le
  · rw [joined_cons, hq, hq' fun h => hr (Reach.of_behindToken h)]

theorem Agree.congr {p' : Parser α} {q' : Parser β} (h : c.Agree us reach f p' q')
    (hp : p (c.alone us) = p' (c.alone us)) (hq : q (c.joined us) = q' (c.joined us)) :
    c.Agree us reach f p q := by
  intro a rest hrun
  rw [hp] at hrun
  obtain ⟨vs, hvs, hrest, hclosing, hq'⟩ := h a rest hrun
  exact ⟨vs, hvs, hrest, hclosing, fun hr => by rw [hq, hq' hr]⟩

theorem Carries.peek : c.Carries n .loose (Token.moved c.lines) peek peek := by
  rintro (_ | ⟨t, us⟩) -
  · exact .atEnd fun a rest hrun => by cases hrun; rfl
  · rintro a rest ⟨⟩
    exact ⟨t :: us, List.suffix_refl _, rfl, nofun, fun _ => rfl⟩

theorem Carries.check (kind : TokenKind) : c.Carries n .loose id (check kind) (check kind) := by
  rintro (_ | ⟨t, us⟩) -
  · exact .atEnd fun a rest hrun => by cases hrun; rfl
  · rintro a rest ⟨⟩
    exact ⟨t :: us, List.suffix_refl _, rfl, nofun, fun _ => rfl⟩

theorem Carries.checkSecond {kind : TokenKind} (hend : kind ≠ .endOfInput)
    (hfresh : next c.behind ≠ kind) :
    c.Carries n .loose id (checkSecond kind) (checkSecond kind) := by
  rintro (_ | ⟨t, _ | ⟨u, us⟩⟩) -
  · exact .atEnd fun a rest hrun => by cases hrun; rfl
  · rintro a rest ⟨⟩
    refine ⟨[t], List.suffix_refl _, rfl, nofun, fun _ => ?_⟩
    have halone : (current [c.mark]).kind ≠ kind := fun h => hend (h.symm.trans c.mark_kind)
    have hjoined : (current c.behind).kind ≠ kind := hfresh
    simp [Parser.checkSecond, halone, hjoined]
  · rintro a rest ⟨⟩
    exact ⟨t :: u :: us, List.suffix_refl _, rfl, nofun, fun _ => rfl⟩

theorem accept_of_next {kind : TokenKind} {ts : List Token} (h : next ts ≠ kind) :
    accept kind ts = .ok (none, ts) := by
  cases ts with
  | nil => rfl
  | cons t ts =>
      have hk : ¬ t.kind = kind := h
      simp [accept, hk]

/-- What comes behind a token that may stand there.  If no token is taken for certain, none of this
kind may stand behind the seam. -/
theorem Carries.acceptThen {kind : TokenKind} {k : Option Token → Parser γ}
    {l : Option Token → Parser δ} (hend : kind ≠ .endOfInput)
    (hfresh : reach = .firm → next c.behind ≠ kind)
    (htaken : ∀ t, ∀ m < n,
      c.Carries m reach.behindToken g (k (some t)) (l (some (t.moved c.lines))))
    (hnone : c.Carries n reach g (k none) (l none)) :
    c.Carries n reach g (accept kind >>= k) (accept kind >>= l) := by
  rintro (_ | ⟨t, us⟩) hus
  · have hmark : next (c.alone []) ≠ kind := fun h => hend (h.symm.trans c.mark_kind)
    intro b rest hrun
    rw [bind_apply, accept_of_next hmark] at hrun
    obtain ⟨vs, hvs, rfl, hclosing, hq⟩ := hnone [] hus b rest hrun
    refine ⟨vs, hvs, rfl, hclosing, fun hr => ?_⟩
    have hreach : reach = .firm := by
      cases reach with
      | loose => exact absurd (List.suffix_nil.mp hvs) (hr rfl)
      | firm => rfl
      | closing => cases hclosing rfl
    rw [bind_apply, joined_nil, accept_of_next (hfresh hreach)]
    exact hq hr
  · by_cases hk : t.kind = kind
    · have htail := htaken t us.length (Nat.lt_of_succ_le hus) us (Nat.le_refl _)
      exact htail.cons (by simp [bind_apply, accept, hk]) (by simp [bind_apply, accept, hk])
    · exact (hnone (t :: us) hus).congr (by simp [bind_apply, accept, hk])
        (by simp [bind_apply, accept, hk])

theorem Carries.accepted {kind : TokenKind} (hend : kind ≠ .endOfInput) :
    c.Carries n .loose (Option.map (Token.moved c.lines)) (accept kind) (accept kind) := by
  have hthen : c.Carries n .loose (Option.map (Token.moved c.lines))
      (Parser.accept kind >>= Pure.pure) (Parser.accept kind >>= Pure.pure) :=
    .acceptThen hend (nofun) (fun _ _ _ => (Carries.pure rfl).loose)
      (Carries.pure rfl).loose
  have hpure : Parser.accept kind >>= Pure.pure = Parser.accept kind := by
    funext ts
    rw [bind_apply]
    cases Parser.accept kind ts <;> rfl
  rwa [hpure] at hthen

theorem Carries.acceptSymbolThen {s : Symbol} {k : Bool → Parser γ} {l : Bool → Parser δ}
    (hfresh : reach = .firm → next c.behind ≠ .symbol s)
    (htaken : ∀ m < n, c.Carries m reach.behindToken g (k true) (l true))
    (hnone : c.Carries n reach g (k false) (l false)) :
    c.Carries n reach g (acceptSymbol s >>= k) (acceptSymbol s >>= l) := by
  simp only [acceptSymbol, bind_assoc]
  exact .acceptThen nofun hfresh (fun _ => htaken) hnone

theorem Carries.acceptKeywordThen {word : Keyword} {k : Bool → Parser γ} {l : Bool → Parser δ}
    (hfresh : reach = .firm → next c.behind ≠ .keyword word)
    (htaken : ∀ m < n, c.Carries m reach.behindToken g (k true) (l true))
    (hnone : c.Carries n reach g (k false) (l false)) :
    c.Carries n reach g (acceptKeyword word >>= k) (acceptKeyword word >>= l) := by
  simp only [acceptKeyword, bind_assoc]
  exact .acceptThen nofun hfresh (fun _ => htaken) hnone

theorem Carries.expect {kind : TokenKind} (hend : kind ≠ .endOfInput) (fault : ParseFault) :
    c.Carries n .closing (Token.moved c.lines) (expect kind fault) (expect kind fault) := by
  rintro (_ | ⟨t, us⟩) -
  · intro a rest hrun
    have hmark : next (c.alone []) ≠ kind := fun h => hend (h.symm.trans c.mark_kind)
    rw [Parser.expect, bind_apply, accept_of_next hmark] at hrun
    cases hrun
  · by_cases hk : t.kind = kind
    · refine Agree.cons ?_ ?_ (Carries.pure (a := t) rfl us (Nat.le_refl _))
      · simp [Parser.expect, accept, hk]
      · simp [Parser.expect, accept, hk]
    · intro a rest hrun
      have hne : next (c.alone (t :: us)) ≠ kind := hk
      rw [Parser.expect, bind_apply, accept_of_next hne] at hrun
      cases hrun

theorem Carries.symbol (s : Symbol) (place : Place) :
    c.Carries n .closing (Token.moved c.lines) (symbol s place) (symbol s place) :=
  Carries.expect (fun h => by cases h) _

theorem Carries.identifier (what : Lacking) :
    c.Carries n .closing (Token.moved c.lines) (identifier what) (identifier what) :=
  Carries.expect (fun h => by cases h) _

theorem Carries.closed {s : Symbol} {place : Place} {f : α → β} {a : α} {b : β} (h : b = f a) :
    c.Carries n .closing f (Parser.symbol s place >>= fun _ => Pure.pure a)
      (Parser.symbol s place >>= fun _ => Pure.pure b) :=
  (Carries.symbol s place).closingThen fun _ => Carries.pure h

theorem Carries.takingThen (hp : c.Carries n .closing f p q)
    (hk : ∀ a, ∀ m < n, c.Carries m reach.behindToken g (k a) (l (f a))) :
    c.Carries n reach g (p >>= k) (q >>= l) := by
  intro us hus b rest hrun
  obtain ⟨a, mid, hrunp, hrunk⟩ := bind_eq_ok.mp hrun
  obtain ⟨vs, hvs, rfl, hclosing, hq⟩ := hp us hus a mid hrunp
  have hlength := hclosing rfl
  obtain ⟨ws, hws, rfl, -, hl⟩ :=
    hk a vs.length (Nat.lt_of_lt_of_le hlength hus) vs (Nat.le_refl _) b rest hrunk
  refine ⟨ws, hws.trans hvs, rfl, fun _ => ?_, fun hr => ?_⟩
  · exact Nat.lt_of_le_of_lt hws.length_le hlength
  · exact bind_eq_ok.mpr ⟨f a, c.joined vs, hq nofun, hl fun h => hr (Reach.of_behindToken h)⟩

/-! ### Repetitions -/

section repetitions
variable {item : Parser α} {item' : Parser β} (h : c.Carries n .loose f item item')
include h

theorem Carries.moreItems : ∀ {m fuel fuel' : Nat}, m ≤ n → m < fuel → m < fuel' →
    c.Carries m .loose (List.map f) (moreItems item fuel) (moreItems item' fuel')
  | m, fuel + 1, fuel' + 1, hm, hfuel, hfuel' => by
      refine .acceptSymbolThen (nofun) (fun m' hm' => ?_) (Carries.pure rfl).loose
      have hmore : c.Carries m' .loose (List.map f) (Parser.moreItems item fuel)
          (Parser.moreItems item' fuel') :=
        Carries.moreItems (by omega) (by omega) (by omega)
      exact .bind (h.mono (by omega)) fun a => .bind hmore fun as => (Carries.pure rfl).loose

theorem Carries.items {fuel fuel' : Nat} (hfuel : n < fuel) (hfuel' : n < fuel') :
    c.Carries n .loose (List.map f) (items fuel item) (items fuel' item') :=
  .bind h fun _ => .bind (h.moreItems (Nat.le_refl n) hfuel hfuel') fun _ =>
    (Carries.pure rfl).loose

theorem Carries.itemsUntil {close : Symbol} : ∀ {m fuel fuel' : Nat},
    m ≤ n → m < fuel → m < fuel' →
      c.Carries m .loose (List.map f) (itemsUntil close item fuel) (itemsUntil close item' fuel')
  | m, fuel + 1, fuel' + 1, hm, hfuel, hfuel' => by
      refine .bind (.check _) fun closes => .ite (fun _ => (Carries.pure rfl).loose) fun _ => ?_
      refine .bind (h.mono hm) fun a => ?_
      refine .acceptSymbolThen (nofun) (fun m' hm' => ?_) (Carries.pure rfl).loose
      have hmore : c.Carries m' .loose (List.map f) (Parser.itemsUntil close item fuel)
          (Parser.itemsUntil close item' fuel') :=
        Carries.itemsUntil (by omega) (by omega) (by omega)
      exact .bind hmore fun as => (Carries.pure rfl).loose

end repetitions

section chains
variable {operator? : TokenKind → Option (α → α → α)} {operand operand' : Parser α} {f : α → α}

theorem chain_cons (fuel : Nat) (left : α) (t : Token) (ts : List Token) :
    chain operator? operand (fuel + 1) left (t :: ts) = match operator? t.kind with
      | some join => (operand >>= fun right => chain operator? operand fuel (join left right)) ts
      | none => .ok (left, t :: ts) := rfl

/-- Operands joined by operators that join what is moved to what is moved. -/
theorem Carries.chain (h : c.Carries n .loose f operand operand')
    (hend : operator? .endOfInput = none)
    (hjoin : ∀ k join, operator? k = some join → ∀ a b, f (join a b) = join (f a) (f b)) :
    ∀ {m fuel fuel' : Nat}, m ≤ n → m < fuel → m < fuel' → ∀ left,
      c.Carries m .loose f (chain operator? operand fuel left)
        (chain operator? operand' fuel' (f left))
  | m, fuel + 1, fuel' + 1, hm, hfuel, hfuel', left => by
      rintro (_ | ⟨t, us⟩) hus
      · refine .atEnd fun a rest hrun => ?_
        rw [chain_cons, c.mark_kind, hend] at hrun
        cases hrun
        rfl
      · have hlength : us.length < m := hus
        cases hop : operator? t.kind with
        | none =>
            have hpure : c.Agree (t :: us) .loose f (Pure.pure left) (Pure.pure (f left)) :=
              (Carries.pure rfl).loose (t :: us) hus
            exact hpure.congr (by simp [chain_cons, hop]) (by simp [chain_cons, hop])
        | some join =>
            have hoperands : c.Carries us.length .loose f
                (operand >>= fun right => Parser.chain operator? operand fuel (join left right))
                (operand' >>= fun right =>
                  Parser.chain operator? operand' fuel' (join (f left) right)) := by
              refine .bind (h.mono (by omega)) fun right => ?_
              rw [← hjoin _ _ hop]
              exact Carries.chain h hend hjoin (by omega) (by omega) (by omega) _
            exact (hoperands us (Nat.le_refl _)).cons (by rw [chain_cons, hop])
              (by rw [chain_cons, Token.kind_moved, hop])

theorem Carries.chained {fuel fuel' : Nat} (h : c.Carries n .loose f operand operand')
    (hend : operator? .endOfInput = none)
    (hjoin : ∀ k join, operator? k = some join → ∀ a b, f (join a b) = join (f a) (f b))
    (hfuel : n < fuel) (hfuel' : n < fuel') :
    c.Carries n .loose f (chained fuel operator? operand) (chained fuel' operator? operand') :=
  .bind h fun left => h.chain hend hjoin (Nat.le_refl n) hfuel hfuel' left

end chains

end Seam

end Classlet.Parser
