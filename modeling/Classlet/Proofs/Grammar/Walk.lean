import Classlet.Grammar.Statement
import Classlet.Proofs.Grammar.Reading

/-! # Walking over tokens

A walk reads a list of tokens with a cursor, which knows how many tokens have been taken and how
many loops and functions of the text it stands in.  To read outside of the tokens, to move behind
the last one, to leave a loop or a function that was not entered, and to use up a bound on
repetitions or nesting all leave a walk without an answer.  Otherwise it answers what it has read,
or a syntax error, and the cursor where it has stopped.

`Track.Follows d n strict p q` says that the walk `q`, which starts at the depths `d` with at most
`n` tokens to go, has an answer, that it does what the parser `p` does with those tokens, and that
it leaves the cursor on a token and at the depths `d`, also when it stops with an error.  If it is
`strict`, what it reads takes a token.  There is one lemma for each way in which walks are put
together. -/

namespace Classlet

/-! ### Walks -/

/-- How many loops and functions a cursor stands in.  The loops are those of the same function. -/
structure Depths where
  loops : Nat
  functions : Nat
  deriving Repr, DecidableEq

/-- A place in a list of tokens. -/
structure Cursor where
  /-- The number of tokens taken. -/
  current : Nat
  depths : Depths
  deriving Repr, DecidableEq

def Walk (α : Type) : Type := List Token → Cursor → Option (Except SyntaxError α × Cursor)

namespace Walk

variable {α β : Type}

protected def pure (a : α) : Walk α := fun _ c => some (.ok a, c)

/-- Read with `p`, then with what `p` calls for. -/
protected def bind (p : Walk α) (k : α → Walk β) : Walk β := fun tokens c =>
  match p tokens c with
  | some (.ok a, c) => k a tokens c
  | some (.error e, c) => some (.error e, c)
  | none => none

instance : Monad Walk where
  pure := Walk.pure
  bind := Walk.bind

theorem pure_apply (a : α) (tokens : List Token) (c : Cursor) :
    (pure a : Walk α) tokens c = some (.ok a, c) := rfl

theorem bind_apply (p : Walk α) (k : α → Walk β) (tokens : List Token) (c : Cursor) :
    (p >>= k) tokens c = match p tokens c with
      | some (.ok a, c) => k a tokens c
      | some (.error e, c) => some (.error e, c)
      | none => none := rfl

/-- A step that reads `a` and goes on at another place. -/
theorem bind_of_ok {p : Walk α} {tokens : List Token} {c c' : Cursor} {a : α}
    (h : p tokens c = some (.ok a, c')) (k : α → Walk β) : (p >>= k) tokens c = k a tokens c' := by
  rw [bind_apply, h]

theorem bind_assoc {γ : Type} (p : Walk α) (k : α → Walk β) (l : β → Walk γ) :
    (p >>= k) >>= l = p >>= fun a => k a >>= l := by
  funext tokens c
  simp only [bind_apply]
  obtain _ | ⟨_ | _, _⟩ := p tokens c <;> rfl

def stuck : Walk α := fun _ _ => none

/-! ### Tokens -/

def peek : Walk Token := fun tokens c => tokens[c.current]?.map fun t => (.ok t, c)

/-- The token taken last. -/
def previous : Walk Token := fun tokens c => tokens[c.current - 1]?.map fun t => (.ok t, c)

/-- Whether the cursor is at the end mark. -/
def atEnd : Walk Bool := do return (← peek).kind = .endOfInput

/-- Whether the token at the cursor is of kind `k`, and not the end mark. -/
def check (k : TokenKind) : Walk Bool := do
  if ← atEnd then pure false else return (← peek).kind = k

/-- Whether there is a token of kind `k` behind the one at the cursor. -/
def checkSecond (k : TokenKind) : Walk Bool := fun tokens c =>
  some (.ok (tokens[c.current + 1]?.any (·.kind = k)), c)

/-- Move the cursor to the next token. -/
def move : Walk Unit := fun tokens c =>
  if c.current + 1 < tokens.length then some (.ok (), { c with current := c.current + 1 }) else none

/-- Take the token at the cursor unless it is the end mark.  The answer is the token taken last. -/
def advance : Walk Token := do
  if !(← atEnd) then move
  previous

/-- Take the token at the cursor if it is of one of the given kinds. -/
def acceptAny : List TokenKind → Walk Bool
  | [] => pure false
  | k :: more => do
    if ← check k then
      let _ ← advance
      pure true
    else acceptAny more

/-- Take the token at the cursor if it is of kind `k`. -/
def accept (k : TokenKind) : Walk (Option Token) := do
  if ← acceptAny [k] then return some (← previous) else pure none

/-- Whether the symbol `s` is at the cursor; it is taken then. -/
def acceptSymbol (s : Symbol) : Walk Bool := acceptAny [.symbol s]

/-- Whether the reserved word `k` is at the cursor; it is taken then. -/
def acceptKeyword (k : Keyword) : Walk Bool := acceptAny [.keyword k]

/-- Stop with a fault at the token `t`. -/
def failAt (t : Token) (fault : ParseFault) : Walk α := fun _ c =>
  some (.error (SyntaxError.near t fault), c)

/-- Stop with a fault at the token at the cursor. -/
def fail (fault : ParseFault) : Walk α := do failAt (← peek) fault

/-- Take the token at the cursor, which has to be of kind `k`. -/
def expect (k : TokenKind) (fault : ParseFault) : Walk Token := do
  if ← check k then advance else fail fault

/-- Take the symbol `s`, which has to stand at a given place. -/
def symbol (s : Symbol) (place : Place) : Walk Token := expect (.symbol s) (.missing s place)

def identifier (what : Lacking) : Walk Token := expect .identifier (.lacking what)

/-! ### Repetitions -/

/-- Items separated by commas behind a first one, at most `fuel` of them. -/
def moreItems (item : Walk α) : Nat → Walk (List α)
  | 0 => stuck
  | fuel + 1 => do
    if ← acceptSymbol .comma then
      let a ← item
      let more ← moreItems item fuel
      pure (a :: more)
    else pure []

/-- One or more items separated by commas, at most `fuel` behind the first. -/
def items (fuel : Nat) (item : Walk α) : Walk (List α) := do
  let a ← item
  let more ← moreItems item fuel
  pure (a :: more)

/-- Items up to a closing symbol, with commas between them and perhaps behind the last; at most
`fuel` of them. -/
def itemsUntil (close : Symbol) (item : Walk α) : Nat → Walk (List α)
  | 0 => stuck
  | fuel + 1 => do
    if ← check (.symbol close) then pure []
    else
      let a ← item
      if ← acceptSymbol .comma then
        let more ← itemsUntil close item fuel
        pure (a :: more)
      else pure [a]

/-- Operands joined by operators of one level, combined from the left; at most `fuel` operators. -/
def chain (operator? : TokenKind → Option (α → α → α)) (operand : Walk α) : Nat → α → Walk α
  | 0, _ => stuck
  | fuel + 1, left => do
    match operator? (← peek).kind with
    | some combine =>
      let _ ← advance
      chain operator? operand fuel (combine left (← operand))
    | none => pure left

/-- A first operand and those joined to it, at most `fuel` of them. -/
def chained (fuel : Nat) (operator? : TokenKind → Option (α → α → α)) (operand : Walk α) :
    Walk α := do
  let left ← operand
  chain operator? operand fuel left

/-! ### Depths -/

def depths : Walk Depths := fun _ c => some (.ok c.depths, c)

/-- Change the depths of the cursor, unless there are none to change them to. -/
def setDepths (d : Option Depths) : Walk Unit := fun _ c =>
  d.map fun d => (.ok (), { c with depths := d })

/-- What `p` answers, even if that is an error. -/
def attempt (p : Walk α) : Walk (Except SyntaxError α) := fun tokens c =>
  (p tokens c).map fun (answer, c) => (.ok answer, c)

def answer (a : Except SyntaxError α) : Walk α := fun _ c => some (a, c)

/-- Walk as `p` does at the depths to which `enter` leads.  The way back, `leave`, starts from the
depths before and those behind `p`, and is taken also if `p` stops with an error. -/
def within (enter : Depths → Depths) (leave : Depths → Depths → Option Depths) (p : Walk α) :
    Walk α := do
  let before ← depths
  setDepths (some (enter before))
  let a ← attempt p
  setDepths (leave before (← depths))
  answer a

theorem attempt_apply {p : Walk α} {tokens : List Token} {c c' : Cursor} {a : Except SyntaxError α}
    (h : p tokens c = some (a, c')) : attempt p tokens c = some (.ok a, c') := by
  rw [attempt, h]
  rfl

theorem within_apply {enter : Depths → Depths} {leave : Depths → Depths → Option Depths}
    {p : Walk α} {tokens : List Token} {i : Nat} {d d' : Depths} {a : Except SyntaxError α}
    {c : Cursor} (h : p tokens ⟨i, enter d⟩ = some (a, c)) (hback : leave d c.depths = some d') :
    within enter leave p tokens ⟨i, d⟩ = some (a, ⟨c.current, d'⟩) := by
  have hleave : setDepths (leave d c.depths) tokens c = some (.ok (), ⟨c.current, d'⟩) := by
    rw [setDepths, hback]
    rfl
  rw [within, bind_of_ok (p := depths) rfl, bind_of_ok (p := setDepths _) rfl,
    bind_of_ok (attempt_apply h), bind_of_ok (p := depths) rfl, bind_of_ok hleave]
  rfl

end Walk

namespace Depths

def enterLoop (d : Depths) : Depths := { d with loops := d.loops + 1 }

/-- One loop less, if there is one. -/
def leaveLoop? (d : Depths) : Option Depths :=
  if d.loops = 0 then none else some { d with loops := d.loops - 1 }

def enterFunction (d : Depths) : Depths := { d with functions := d.functions + 1 }

/-- One function less, if there is one. -/
def leaveFunction? (d : Depths) : Option Depths :=
  if d.functions = 0 then none else some { d with functions := d.functions - 1 }

/-- One function more, in which the loops around it do not count. -/
def enterBody (d : Depths) : Depths := { d.enterFunction with loops := 0 }

/-- One function less, and the loops that there were around it. -/
def leaveBody? (before d : Depths) : Option Depths :=
  d.leaveFunction?.map fun d => { d with loops := before.loops }

/-- What the depths say about `break` and `return`. -/
def surroundings (d : Depths) : Grammar.Surroundings where
  inLoop := d.loops ≠ 0
  inFunction := d.functions ≠ 0

end Depths

namespace Walk

variable {α : Type}

def inLoop (p : Walk α) : Walk α := within .enterLoop (fun _ d => d.leaveLoop?) p

def inFunction (p : Walk α) : Walk α := within .enterFunction (fun _ d => d.leaveFunction?) p

/-- Walk as `p` does in the body of a function. -/
def inBody (p : Walk α) : Walk α := within .enterBody Depths.leaveBody? p

end Walk

/-! ### Walks that follow parsers -/

/-- Tokens with their only end mark behind them. -/
structure Track where
  tokens : List Token
  nonempty : 0 < tokens.length
  ended : ∀ i (h : i < tokens.length), tokens[i].kind = .endOfInput ↔ i + 1 = tokens.length

namespace Track

variable (T : Track) {α β : Type} {d d' : Depths} {i j m n : Nat} {s s' : Bool}

theorem drop_eq (hi : i < T.tokens.length) :
    T.tokens.drop i = T.tokens[i] :: T.tokens.drop (i + 1) := List.drop_eq_getElem_cons hi

theorem current_drop (hi : i < T.tokens.length) :
    Parser.current (T.tokens.drop i) = T.tokens[i] := by
  rw [T.drop_eq hi]
  rfl

theorem next_drop (hi : i < T.tokens.length) :
    Parser.next (T.tokens.drop i) = T.tokens[i].kind := by
  rw [Parser.next, T.current_drop hi]

/-- Behind a token that is not the end mark comes another one. -/
theorem succ_lt (hi : i < T.tokens.length) (h : T.tokens[i].kind ≠ .endOfInput) :
    i + 1 < T.tokens.length := by
  have hne := mt (T.ended i hi).mpr h
  omega

/-- What a parser has answered and what a walk that started at `i` has answered agree. -/
inductive Agrees (d : Depths) (i : Nat) (strict : Bool) :
    Except ParseFailure (α × List Token) → Option (Except SyntaxError α × Cursor) → Prop
  | ok {a : α} {j : Nat} : i ≤ j → j < T.tokens.length → (strict = true → i < j) →
      Agrees d i strict (.ok (a, T.tokens.drop j)) (some (.ok a, ⟨j, d⟩))
  | error {e : SyntaxError} {j : Nat} : i ≤ j → j < T.tokens.length →
      Agrees d i strict (.error ⟨e, T.tokens.drop j⟩) (some (.error e, ⟨j, d⟩))

/-- With at most `n` tokens to go, the walk `q` does what the parser `p` does. -/
def Follows (d : Depths) (n : Nat) (strict : Bool) (p : Parser α) (q : Walk α) : Prop :=
  ∀ i, i < T.tokens.length → T.tokens.length ≤ i + n →
    T.Agrees d i strict (p (T.tokens.drop i)) (q T.tokens ⟨i, d⟩)

variable {T} {p : Parser α} {q : Walk α} {k : α → Parser β} {l : α → Walk β}

/-- Where no token has to be taken. -/
theorem Agrees.loose {a : α} (hle : i ≤ j) (hj : j < T.tokens.length) :
    T.Agrees d i false (.ok (a, T.tokens.drop j)) (some (.ok a, ⟨j, d⟩)) :=
  .ok hle hj (absurd · Bool.false_ne_true)

/-! ### Weaker statements -/

/-- What starts later takes tokens from here. -/
theorem Agrees.from {x : Except ParseFailure (α × List Token)}
    {y : Option (Except SyntaxError α × Cursor)} (h : T.Agrees d j s x y) (hij : i ≤ j)
    (hs : s' = true → i < j ∨ s = true) : T.Agrees d i s' x y := by
  cases h with
  | ok hle hlt hstrict =>
      refine .ok (Nat.le_trans hij hle) hlt fun hs' => ?_
      rcases hs hs' with h | h
      · exact Nat.lt_of_lt_of_le h hle
      · exact Nat.lt_of_le_of_lt hij (hstrict h)
  | error hle hlt => exact .error (Nat.le_trans hij hle) hlt

theorem Agrees.behind {x : Except ParseFailure (α × List Token)}
    {y : Option (Except SyntaxError α × Cursor)} (h : T.Agrees d j s x y) (hij : i < j) :
    T.Agrees d i s' x y := h.from (Nat.le_of_lt hij) fun _ => .inl hij

theorem Agrees.bind {ts : List Token} {c : Cursor} (h : T.Agrees d i s (p ts) (q T.tokens c))
    (hk : ∀ a j, i ≤ j → j < T.tokens.length → (s = true → i < j) →
      T.Agrees d j (s' && !s) (k a (T.tokens.drop j)) (l a T.tokens ⟨j, d⟩)) :
    T.Agrees d i s' ((p >>= k) ts) ((q >>= l) T.tokens c) := by
  rw [Parser.bind_apply, Walk.bind_apply]
  generalize p ts = x at h
  generalize q T.tokens c = y at h
  cases h with
  | @ok a j hle hlt hstrict =>
      refine (hk a j hle hlt hstrict).from hle fun hs' => ?_
      cases s with
      | true => exact .inl (hstrict rfl)
      | false => exact .inr (by simpa using hs')
  | error hle hlt => exact .error hle hlt

namespace Follows

theorem weaken (h : T.Follows d n s p q) : T.Follows d n false p q := fun i hi hn =>
  (h i hi hn).from (Nat.le_refl i) (absurd · Bool.false_ne_true)

theorem mono (h : T.Follows d n s p q) (hm : m ≤ n) : T.Follows d m s p q := fun i hi hn =>
  h i hi (by omega)

/-- Where no token is left there is nothing to show. -/
theorem empty : T.Follows d 0 s p q := fun i hi hn => by omega

/-! ### One after the other -/

/-- What comes second has fewer tokens to go if the first takes one. -/
theorem bind (hp : T.Follows d n s p q) (hk : ∀ a m, m ≤ n → (s = true → m < n) →
    T.Follows d m (s' && !s) (k a) (l a)) : T.Follows d n s' (p >>= k) (q >>= l) := by
  intro i hi hn
  refine (hp i hi hn).bind fun a j hle hlt hstrict => ?_
  refine hk a (n - (j - i)) (by omega) (fun hs => ?_) j hlt (by omega)
  have hmoved := hstrict hs
  omega

/-- The first need not take a token, or it does not matter. -/
theorem andThen (hp : T.Follows d n s p q) (hk : ∀ a, T.Follows d n s' (k a) (l a)) :
    T.Follows d n s' (p >>= k) (q >>= l) :=
  hp.weaken.bind fun a m hm _ => by simpa using (hk a).mono hm

/-- The first takes a token, and what comes second need not. -/
theorem behind (hp : T.Follows d n true p q)
    (hk : ∀ a, ∀ m < n, T.Follows d m false (k a) (l a)) : T.Follows d n s (p >>= k) (q >>= l) :=
  hp.bind fun a m _ hm => by simpa using hk a m (hm rfl)

theorem onward (h : T.Follows d m s p q) (hm : n ≤ m + 1) (hi : i < T.tokens.length)
    (hn : T.tokens.length ≤ i + n) (hend : T.tokens[i].kind ≠ .endOfInput) :
    T.Agrees d i s' (p (T.tokens.drop (i + 1))) (q T.tokens ⟨i + 1, d⟩) :=
  (h (i + 1) (T.succ_lt hi hend) (by omega)).behind (Nat.lt_succ_self i)

theorem pure (a : α) : T.Follows d n false (pure a) (pure a) := fun i hi _ =>
  .loose (Nat.le_refl i) hi

theorem failAt (t : Token) (fault : ParseFault) :
    T.Follows d n s (Parser.failAt t fault : Parser α) (Walk.failAt t fault) := fun i hi _ =>
  .error (Nat.le_refl i) hi

theorem ite {b : Bool} {p' : Parser α} {q' : Walk α} (hp : T.Follows d n s p q)
    (hq : T.Follows d n s p' q') :
    T.Follows d n s (if b = true then p else p') (if b = true then q else q') := by
  cases b
  · exact hq
  · exact hp

end Follows

/-! ### Tokens -/

theorem checkSecond_apply {k : TokenKind} (hk : k ≠ .endOfInput) :
    Walk.checkSecond k T.tokens ⟨i, d⟩ =
      some (.ok (decide (Parser.next (T.tokens.drop (i + 1)) = k)), ⟨i, d⟩) := by
  rw [Walk.checkSecond]
  by_cases hlt : i + 1 < T.tokens.length
  · rw [T.next_drop hlt, List.getElem?_eq_getElem hlt]
    rfl
  · rw [List.getElem?_eq_none (Nat.le_of_not_lt hlt),
      List.drop_eq_nil_of_le (Nat.le_of_not_lt hlt), Parser.next_nil, decide_eq_false hk.symm]
    rfl

section tokens
variable (hi : i < T.tokens.length)
include hi

theorem peek_apply : Walk.peek T.tokens ⟨i, d⟩ = some (.ok T.tokens[i], ⟨i, d⟩) := by
  simp [Walk.peek, hi]

theorem previous_apply :
    Walk.previous T.tokens ⟨i + 1, d⟩ = some (.ok T.tokens[i], ⟨i + 1, d⟩) := by
  simp [Walk.previous, hi]

theorem atEnd_apply : Walk.atEnd T.tokens ⟨i, d⟩ =
    some (.ok (decide (T.tokens[i].kind = .endOfInput)), ⟨i, d⟩) := by
  rw [Walk.atEnd, Walk.bind_of_ok (peek_apply hi)]
  rfl

theorem check_apply {k : TokenKind} (hk : k ≠ .endOfInput) : Walk.check k T.tokens ⟨i, d⟩ =
    some (.ok (decide (T.tokens[i].kind = k)), ⟨i, d⟩) := by
  rw [Walk.check, Walk.bind_of_ok (atEnd_apply hi)]
  by_cases hend : T.tokens[i].kind = .endOfInput
  · simp [hend, hk.symm, Walk.pure_apply]
  · rw [if_neg (by simpa using hend), Walk.bind_of_ok (peek_apply hi)]
    rfl

theorem accept_apply {k : TokenKind} (hkind : T.tokens[i].kind = k) :
    Parser.accept k (T.tokens.drop i) = .ok (some T.tokens[i], T.tokens.drop (i + 1)) := by
  rw [T.drop_eq hi, Parser.accept, if_pos hkind]

theorem accept_apply_of_ne {k : TokenKind} (hkind : T.tokens[i].kind ≠ k) :
    Parser.accept k (T.tokens.drop i) = .ok (none, T.tokens.drop i) := by
  rw [T.drop_eq hi, Parser.accept, if_neg hkind]

theorem expect_apply {k : TokenKind} (hkind : T.tokens[i].kind = k) (fault : ParseFault) :
    Parser.expect k fault (T.tokens.drop i) = .ok (T.tokens[i], T.tokens.drop (i + 1)) := by
  rw [Parser.expect, Parser.bind_of_ok (accept_apply hi hkind)]
  rfl

theorem advance_apply (hend : T.tokens[i].kind ≠ .endOfInput) :
    Walk.advance T.tokens ⟨i, d⟩ = some (.ok T.tokens[i], ⟨i + 1, d⟩) := by
  have hmove : Walk.move T.tokens ⟨i, d⟩ = some (.ok (), ⟨i + 1, d⟩) := if_pos (T.succ_lt hi hend)
  rw [Walk.advance, Walk.bind_of_ok (atEnd_apply hi), if_pos (by simpa using hend),
    Walk.bind_of_ok hmove]
  exact previous_apply hi

theorem advance_apply_end (hend : T.tokens[i].kind = .endOfInput) :
    Walk.advance T.tokens ⟨i, d⟩ = some (.ok T.tokens[i - 1], ⟨i, d⟩) := by
  have hprevious : i - 1 < T.tokens.length := by omega
  rw [Walk.advance, Walk.bind_of_ok (atEnd_apply hi), if_neg (by simpa using hend)]
  simp [Walk.previous, hprevious]

theorem acceptAny_apply : ∀ {ks : List TokenKind}, .endOfInput ∉ ks →
    Walk.acceptAny ks T.tokens ⟨i, d⟩ = some (.ok (decide (T.tokens[i].kind ∈ ks)),
      ⟨if T.tokens[i].kind ∈ ks then i + 1 else i, d⟩)
  | [], _ => by simp [Walk.acceptAny, Walk.pure_apply]
  | k :: ks, hks => by
      obtain ⟨hne, hks⟩ := not_or.mp (mt List.mem_cons.mpr hks)
      have hk : k ≠ .endOfInput := fun h => hne h.symm
      rw [Walk.acceptAny, Walk.bind_of_ok (check_apply hi hk)]
      by_cases hkind : T.tokens[i].kind = k
      · rw [if_pos (by simpa using hkind), Walk.bind_of_ok (advance_apply hi (hkind ▸ hk)),
          Walk.pure_apply]
        simp [hkind]
      · rw [if_neg (by simpa using hkind), acceptAny_apply hks]
        simp [hkind]

theorem acceptAny_of_mem {ks : List TokenKind} (hks : .endOfInput ∉ ks)
    (h : T.tokens[i].kind ∈ ks) :
    Walk.acceptAny ks T.tokens ⟨i, d⟩ = some (.ok true, ⟨i + 1, d⟩) := by
  rw [acceptAny_apply hi hks, if_pos h, decide_eq_true h]

theorem acceptAny_of_not_mem {ks : List TokenKind} (hks : .endOfInput ∉ ks)
    (h : T.tokens[i].kind ∉ ks) :
    Walk.acceptAny ks T.tokens ⟨i, d⟩ = some (.ok false, ⟨i, d⟩) := by
  rw [acceptAny_apply hi hks, if_neg h, decide_eq_false h]

/-! A walk that looks whether it can take a token agrees with what it is compared to if it does so
in both cases. -/

section accept
variable {x : Except ParseFailure (α × List Token)} {l : Bool → Walk α}

theorem Agrees.acceptAny {ks : List TokenKind} (hks : .endOfInput ∉ ks)
    (hyes : T.tokens[i].kind ∈ ks → T.Agrees d i s x (l true T.tokens ⟨i + 1, d⟩))
    (hno : T.tokens[i].kind ∉ ks → T.Agrees d i s x (l false T.tokens ⟨i, d⟩)) :
    T.Agrees d i s x ((Walk.acceptAny ks >>= l) T.tokens ⟨i, d⟩) := by
  by_cases hkind : T.tokens[i].kind ∈ ks
  · rw [Walk.bind_of_ok (acceptAny_of_mem hi hks hkind)]
    exact hyes hkind
  · rw [Walk.bind_of_ok (acceptAny_of_not_mem hi hks hkind)]
    exact hno hkind

theorem Agrees.acceptOne {k : TokenKind} (hk : k ≠ .endOfInput)
    (hyes : T.tokens[i].kind = k → T.Agrees d i s x (l true T.tokens ⟨i + 1, d⟩))
    (hno : T.tokens[i].kind ≠ k → T.Agrees d i s x (l false T.tokens ⟨i, d⟩)) :
    T.Agrees d i s x ((Walk.acceptAny [k] >>= l) T.tokens ⟨i, d⟩) :=
  .acceptAny hi (by simpa using hk.symm) (fun h => hyes (List.mem_singleton.mp h))
    fun h => hno (mt List.mem_singleton.mpr h)

theorem Agrees.acceptKeyword {word : Keyword}
    (hyes : T.tokens[i].kind = .keyword word → T.Agrees d i s x (l true T.tokens ⟨i + 1, d⟩))
    (hno : T.tokens[i].kind ≠ .keyword word → T.Agrees d i s x (l false T.tokens ⟨i, d⟩)) :
    T.Agrees d i s x ((Walk.acceptKeyword word >>= l) T.tokens ⟨i, d⟩) :=
  .acceptOne hi (by simp) hyes hno

theorem Agrees.acceptSymbol {sym : Symbol}
    (hyes : T.tokens[i].kind = .symbol sym → T.Agrees d i s x (l true T.tokens ⟨i + 1, d⟩))
    (hno : T.tokens[i].kind ≠ .symbol sym → T.Agrees d i s x (l false T.tokens ⟨i, d⟩)) :
    T.Agrees d i s x ((Walk.acceptSymbol sym >>= l) T.tokens ⟨i, d⟩) :=
  .acceptOne hi (by simp) hyes hno

end accept

end tokens

namespace Follows

theorem peek : T.Follows d n false Parser.peek Walk.peek := fun i hi _ => by
  rw [peek_apply hi, Parser.peek, T.current_drop hi]
  exact .loose (Nat.le_refl i) hi

theorem check {k : TokenKind} (hk : k ≠ .endOfInput) :
    T.Follows d n false (Parser.check k) (Walk.check k) := fun i hi _ => by
  rw [check_apply hi hk, Parser.check, T.current_drop hi]
  exact .loose (Nat.le_refl i) hi

theorem atEnd : T.Follows d n false Parser.atEnd Walk.atEnd := fun i hi _ => by
  rw [atEnd_apply hi, Parser.atEnd, Parser.check, T.current_drop hi]
  exact .loose (Nat.le_refl i) hi

theorem fail (fault : ParseFault) :
    T.Follows d n s (Parser.fail fault : Parser α) (Walk.fail fault) := fun i hi _ => by
  rw [Walk.fail, Walk.bind_of_ok (peek_apply hi), Parser.fail, T.current_drop hi]
  exact .error (Nat.le_refl i) hi

theorem acceptThen {k : TokenKind} (hk : k ≠ .endOfInput) {f : Option Token → Parser β}
    {g : Option Token → Walk β} (hyes : ∀ t, ∀ m < n, T.Follows d m false (f (some t)) (g (some t)))
    (hno : T.Follows d n s (f none) (g none)) :
    T.Follows d n s (Parser.accept k >>= f) (Walk.accept k >>= g) := by
  intro i hi hn
  rw [Walk.accept, Walk.bind_assoc]
  refine .acceptOne hi hk (fun hkind => ?_) fun hkind => ?_
  · rw [Parser.bind_of_ok (accept_apply hi hkind), if_pos rfl, Walk.bind_assoc,
      Walk.bind_of_ok (previous_apply hi)]
    exact (hyes _ (n - 1) (by omega)).onward (by omega) hi hn (hkind ▸ hk)
  · rw [Parser.bind_of_ok (accept_apply_of_ne hi hkind)]
    exact hno i hi hn

/-- What goes on one way if a token of kind `k` is next, and another way if not. -/
theorem acceptedThen {k : TokenKind} (hk : k ≠ .endOfInput) {f : Bool → Parser β}
    {g : Bool → Walk β} (hyes : ∀ m < n, T.Follows d m false (f true) (g true))
    (hno : T.Follows d n s (f false) (g false)) :
    T.Follows d n s ((do return (← Parser.accept k).isSome) >>= f) (Walk.acceptAny [k] >>= g) := by
  intro i hi hn
  rw [Parser.bind_assoc]
  refine .acceptOne hi hk (fun hkind => ?_) fun hkind => ?_
  · rw [Parser.bind_of_ok (accept_apply hi hkind)]
    exact (hyes (n - 1) (by omega)).onward (by omega) hi hn (hkind ▸ hk)
  · rw [Parser.bind_of_ok (accept_apply_of_ne hi hkind)]
    exact hno i hi hn

theorem acceptSymbolThen {sym : Symbol} {f : Bool → Parser β} {g : Bool → Walk β}
    (hyes : ∀ m < n, T.Follows d m false (f true) (g true))
    (hno : T.Follows d n s (f false) (g false)) :
    T.Follows d n s (Parser.acceptSymbol sym >>= f) (Walk.acceptSymbol sym >>= g) :=
  acceptedThen (k := .symbol sym) (by simp) hyes hno

/-- A symbol that may stand there, where nothing else depends on whether it does. -/
theorem optional {sym : Symbol} {f : Bool → Parser β} {g : Bool → Walk β}
    (h : ∀ b, T.Follows d n s (f b) (g b)) :
    T.Follows d n s (Parser.acceptSymbol sym >>= f) (Walk.acceptSymbol sym >>= g) :=
  acceptSymbolThen (fun _ hm => ((h true).mono (Nat.le_of_lt hm)).weaken) (h false)

theorem acceptKeywordThen {word : Keyword} {f : Bool → Parser β} {g : Bool → Walk β}
    (hyes : ∀ m < n, T.Follows d m false (f true) (g true))
    (hno : T.Follows d n s (f false) (g false)) :
    T.Follows d n s (Parser.acceptKeyword word >>= f) (Walk.acceptKeyword word >>= g) :=
  acceptedThen (k := .keyword word) (by simp) hyes hno

theorem expect {k : TokenKind} (hk : k ≠ .endOfInput) (fault : ParseFault) :
    T.Follows d n true (Parser.expect k fault) (Walk.expect k fault) := by
  intro i hi hn
  rw [Walk.expect, Walk.bind_of_ok (check_apply hi hk)]
  by_cases hkind : T.tokens[i].kind = k
  · have hend : T.tokens[i].kind ≠ .endOfInput := hkind ▸ hk
    rw [expect_apply hi hkind, if_pos (by simpa using hkind), advance_apply hi hend]
    exact .ok (Nat.le_succ i) (T.succ_lt hi hend) fun _ => Nat.lt_succ_self i
  · rw [Parser.expect, Parser.bind_of_ok (accept_apply_of_ne hi hkind),
      if_neg (by simpa using hkind)]
    exact fail fault i hi hn

theorem symbol (sym : Symbol) (place : Place) :
    T.Follows d n true (Parser.symbol sym place) (Walk.symbol sym place) :=
  expect (k := .symbol sym) (by simp) _

theorem identifier (what : Lacking) :
    T.Follows d n true (Parser.identifier what) (Walk.identifier what) :=
  expect (k := .identifier) (by simp) _

theorem closed {sym : Symbol} {place : Place} (a : α) :
    T.Follows d n s (Parser.symbol sym place >>= fun _ => Pure.pure a)
      (Walk.symbol sym place >>= fun _ => Pure.pure a) :=
  .behind (.symbol sym place) fun _ _ _ => .pure a

/-- What takes tokens of kinds `k` and `k'` if they are next, and goes on another way if not. -/
theorem takeTwo {k k' : TokenKind} (hk : k ≠ .endOfInput) (hk' : k' ≠ .endOfInput)
    {fault : ParseFault} {f : Token → Parser α} {g : Token → Walk α} {p' : Parser α} {q' : Walk α}
    (hyes : ∀ t, T.Follows d n s (f t) (g t)) (hno : T.Follows d n s p' q') :
    T.Follows d n s
      (Parser.check k >>= fun a => Parser.checkSecond k' >>= fun b =>
        if a && b then Parser.expect k fault >>= fun t => Parser.accept k' >>= fun _ => f t else p')
      (Walk.check k >>= fun a => Walk.checkSecond k' >>= fun b =>
        if a && b then Walk.advance >>= fun t => Walk.advance >>= fun _ => g t else q') := by
  intro i hi hn
  rw [Parser.check_bind, Parser.checkSecond_bind, List.tail_drop, T.next_drop hi,
    Walk.bind_of_ok (check_apply hi hk), Walk.bind_of_ok (checkSecond_apply hk')]
  cases hboth : decide (T.tokens[i].kind = k) &&
      decide (Parser.next (T.tokens.drop (i + 1)) = k') with
  | true =>
      obtain ⟨hfirst, hsecond⟩ := Bool.and_eq_true_iff.mp hboth
      have hfirst : T.tokens[i].kind = k := of_decide_eq_true hfirst
      have hlt := T.succ_lt hi (hfirst ▸ hk)
      rw [T.next_drop hlt] at hsecond
      have hsecond : T.tokens[i + 1].kind = k' := of_decide_eq_true hsecond
      rw [if_pos rfl, if_pos rfl, Parser.bind_of_ok (expect_apply hi hfirst fault),
        Parser.bind_of_ok (accept_apply hlt hsecond),
        Walk.bind_of_ok (advance_apply hi (hfirst ▸ hk)),
        Walk.bind_of_ok (advance_apply hlt (hsecond ▸ hk'))]
      have hmore : T.Agrees d (i + 1) s _ _ :=
        (hyes T.tokens[i]).onward (Nat.le_succ n) hlt (by omega) (hsecond ▸ hk')
      exact hmore.behind (Nat.lt_succ_self i)
  | false => exact hno i hi hn

/-! ### Repetitions -/

theorem moreItems (h : T.Follows d n s p q) : ∀ {m fuel fuel' : Nat}, m ≤ n → m ≤ fuel →
    m ≤ fuel' → T.Follows d m false (Parser.moreItems p fuel) (Walk.moreItems q fuel')
  | 0, _, _, _, _, _ => .empty
  | m + 1, fuel + 1, fuel' + 1, hm, hfuel, hfuel' => by
      unfold Parser.moreItems Walk.moreItems
      refine .acceptSymbolThen (fun m' hm' => ?_) (.pure [])
      have hmore : T.Follows d m' false (Parser.moreItems p fuel) (Walk.moreItems q fuel') :=
        moreItems h (by omega) (by omega) (by omega)
      exact .andThen (h.mono (by omega)) fun a => hmore.andThen fun more => .pure _

theorem items (h : T.Follows d n s p q) {fuel fuel' : Nat} (hfuel : n ≤ fuel) (hfuel' : n ≤ fuel') :
    T.Follows d n false (Parser.items fuel p) (Walk.items fuel' q) :=
  .andThen h fun _ => (h.moreItems (Nat.le_refl n) hfuel hfuel').andThen fun _ => .pure _

theorem itemsUntil {close : Symbol} (h : T.Follows d n s p q) : ∀ {m fuel fuel' : Nat}, m ≤ n →
    m ≤ fuel → m ≤ fuel' →
      T.Follows d m false (Parser.itemsUntil close p fuel) (Walk.itemsUntil close q fuel')
  | 0, _, _, _, _, _ => .empty
  | m + 1, fuel + 1, fuel' + 1, hm, hfuel, hfuel' => by
      unfold Parser.itemsUntil Walk.itemsUntil
      refine .andThen (.check (by simp)) fun _ => .ite (.pure []) ?_
      refine .andThen (h.mono hm) fun a => .acceptSymbolThen (fun m' hm' => ?_) (.pure [a])
      exact .andThen (itemsUntil h (by omega) (by omega) (by omega)) fun more => .pure _

theorem chain {operator? : TokenKind → Option (α → α → α)} (hend : operator? .endOfInput = none)
    (h : T.Follows d n s p q) : ∀ {m fuel fuel' : Nat}, m ≤ n → m ≤ fuel → m ≤ fuel' → ∀ left,
      T.Follows d m false (Parser.chain operator? p fuel left) (Walk.chain operator? q fuel' left)
  | 0, _, _, _, _, _, _ => .empty
  | m + 1, fuel + 1, fuel' + 1, hm, hfuel, hfuel', left => by
      intro i hi hn
      rw [T.drop_eq hi, Parser.chain, Walk.chain, Walk.bind_of_ok (peek_apply hi)]
      cases hop : operator? T.tokens[i].kind with
      | some combine =>
          have hkind : T.tokens[i].kind ≠ .endOfInput := fun heq => by
            rw [heq, hend] at hop
            cases hop
          have hmore : T.Follows d m false
              (do Parser.chain operator? p fuel (combine left (← p)))
              (do Walk.chain operator? q fuel' (combine left (← q))) :=
            .andThen (h.mono (by omega)) fun right =>
              chain hend h (by omega) (by omega) (by omega) (combine left right)
          simp only [hop]
          rw [Walk.bind_of_ok (advance_apply hi hkind)]
          exact hmore.onward (Nat.le_refl _) hi hn hkind
      | none =>
          simp only [hop]
          rw [← T.drop_eq hi]
          exact pure left i hi hn

theorem chained {operator? : TokenKind → Option (α → α → α)} (hend : operator? .endOfInput = none)
    (h : T.Follows d n s p q) {fuel fuel' : Nat} (hfuel : n ≤ fuel) (hfuel' : n ≤ fuel') :
    T.Follows d n false (Parser.chained fuel operator? p) (Walk.chained fuel' operator? q) :=
  .andThen h fun left => chain hend h (Nat.le_refl n) hfuel hfuel' left

/-! ### Depths -/

/-- What starts and ends at other depths, and finds its way back from them. -/
theorem within {enter : Depths → Depths} {leave : Depths → Depths → Option Depths}
    (h : T.Follows (enter d) n s p q) (hback : leave d (enter d) = some d) :
    T.Follows d n s p (Walk.within enter leave q) := by
  intro i hi hn
  have hinner := h i hi hn
  generalize p (T.tokens.drop i) = x at hinner
  generalize hy : q T.tokens ⟨i, enter d⟩ = y at hinner
  cases hinner with
  | ok hle hlt hstrict =>
      rw [Walk.within_apply hy hback]
      exact .ok hle hlt hstrict
  | error hle hlt =>
      rw [Walk.within_apply hy hback]
      exact .error hle hlt

theorem inLoop (h : T.Follows d.enterLoop n s p q) : T.Follows d n s p (Walk.inLoop q) :=
  h.within (by simp [Depths.leaveLoop?, Depths.enterLoop])

theorem inFunction (h : T.Follows d.enterFunction n s p q) :
    T.Follows d n s p (Walk.inFunction q) :=
  h.within (by simp [Depths.leaveFunction?, Depths.enterFunction])

theorem inBody (h : T.Follows d.enterBody n s p q) : T.Follows d n s p (Walk.inBody q) :=
  h.within (by simp [Depths.leaveBody?, Depths.leaveFunction?, Depths.enterBody,
    Depths.enterFunction])

end Follows

end Track

end Classlet
