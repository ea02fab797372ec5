import Classlet.Proofs.Grammar.WalkStatement

/-! # Reading never stalls

A whole text is read in attempts at a statement.  Where one fails, the tokens up to the next
boundary are skipped.  An `Attempt` keeps where the cursor was when it started, what it answered,
where it stopped, and from where reading goes on.

Tokens that end in their only end mark are read to the end with any bound above their number, and
the attempts are the same with each (`reading_never_stalls`).  They are `Attempt.Orderly`: each
starts outside of loops and functions, and takes a token unless it is at the end. -/

namespace Classlet

namespace Walk

/-! ### Whole texts -/

/-- Skip tokens up to a statement boundary, at most `fuel` of them. -/
def skipToBoundary : Nat → Walk Unit
  | 0 => stuck
  | fuel + 1 => do
    if ← atEnd then pure ()
    else if (← previous).kind = .symbol .semicolon then pure ()
    else if Grammar.resumesAt (← peek).kind then pure ()
    else
      let _ ← advance
      skipToBoundary fuel

/-- Take a token and skip those up to a statement boundary, at most `fuel` of them. -/
def synchronize (fuel : Nat) : Walk Unit := do
  let _ ← advance
  skipToBoundary fuel

/-- An attempt at a statement. -/
structure Attempt where
  /-- The cursor before. -/
  start : Cursor
  answer : Except SyntaxError Statement
  /-- The cursor where the statement or the error was found to end. -/
  stop : Cursor
  /-- The cursor from which reading goes on. -/
  resumed : Cursor

def cursor : Walk Cursor := fun _ c => some (.ok c, c)

/-- Attempt a statement, and find a place to go on from if that fails. -/
def turn (rules : Rules) : Walk Attempt := do
  let start ← cursor
  let answer ← attempt rules.declaration
  let stop ← cursor
  if !answer.isOk then synchronize rules.passes
  let resumed ← cursor
  pure ⟨start, answer, stop, resumed⟩

/-- Attempts at statements up to the end, at most `fuel` of them. -/
def attempts (rules : Rules) : Nat → Walk (List Attempt)
  | 0 => stuck
  | fuel + 1 => do
    if ← atEnd then pure []
    else
      let a ← turn rules
      let more ← attempts rules fuel
      pure (a :: more)

/-- Read a whole text that nests and repeats less than `bound` times. -/
def program (bound : Nat) : Walk (List Attempt) := attempts (rulesAt bound bound) bound

def statements (as : List Attempt) : List Statement := as.filterMap fun a =>
  match a.answer with
  | .ok s => some s
  | .error _ => none

def errors (as : List Attempt) : List SyntaxError := as.filterMap fun a =>
  match a.answer with
  | .ok _ => none
  | .error e => some e

/-- What is answered for a text: its statements, unless there were errors. -/
def outcome (as : List Attempt) : Except (List SyntaxError) (List Statement) :=
  if (errors as).isEmpty then .ok (statements as) else .error (errors as)

/-- The attempt answers what `p` reads where it starts, and goes on from where a text is read on
after that. -/
inductive Attempt.Reads (p : Parser Statement) (tokens : List Token) : Attempt → Prop
  | ok {start stop : Cursor} {s : Statement} :
      p (tokens.drop start.current) = .ok (s, tokens.drop stop.current) →
      Reads p tokens ⟨start, .ok s, stop, stop⟩
  | error {start stop resumed : Cursor} {e : SyntaxError} :
      p (tokens.drop start.current) = .error ⟨e, tokens.drop stop.current⟩ →
      Grammar.synchronize (tokens.drop stop.current) = tokens.drop resumed.current →
      Reads p tokens ⟨start, .error e, stop, resumed⟩

/-- The attempt starts in no loop and in no function, moves on, and stays on the tokens. -/
structure Attempt.Orderly (tokens : List Token) (a : Attempt) : Prop where
  /-- It starts outside of loops and functions. -/
  outside : a.start.depths = ⟨0, 0⟩
  /-- It starts before the end mark. -/
  before : a.start.current + 1 < tokens.length
  stop_lt : a.stop.current < tokens.length
  resumed_lt : a.resumed.current < tokens.length
  /-- A statement takes a token, and reading goes on behind it. -/
  read : ∀ s, a.answer = .ok s → a.start.current < a.stop.current ∧ a.resumed = a.stop
  /-- Behind an error another token is taken, unless the end mark is reached. -/
  failed : ∀ e, a.answer = .error e → a.start.current ≤ a.stop.current ∧
    (a.stop.current < a.resumed.current ∨ a.stop.current + 1 = tokens.length)

theorem Attempt.Reads.program_eq {p : Parser Statement} {tokens : List Token} {a : Attempt}
    {as : List Attempt} {fuel : Nat} (h : a.Reads p tokens)
    (hstart : (Parser.current (tokens.drop a.start.current)).kind ≠ .endOfInput)
    (hmore : Grammar.program p fuel (tokens.drop a.resumed.current) = (statements as, errors as)) :
    Grammar.program p (fuel + 1) (tokens.drop a.start.current) =
      (statements (a :: as), errors (a :: as)) := by
  rw [Grammar.program, if_neg hstart]
  cases h with
  | ok hp =>
      rw [hp]
      simp only [hmore]
      rfl
  | error hp hsync =>
      rw [hp]
      simp only [hsync, hmore]
      rfl

end Walk

namespace Track

variable {T : Track} {α : Type} {d : Depths} {i j m n : Nat} {s : Bool}

/-! ### Resuming -/

theorem skipToBoundary : ∀ {m fuel i : Nat} (hprevious : i < T.tokens.length),
    i + 1 < T.tokens.length → T.tokens.length ≤ i + 1 + m → m ≤ fuel →
    T.Agrees d (i + 1) false
      (.ok ((), Grammar.skipToBoundary T.tokens[i] (T.tokens.drop (i + 1))))
      (Walk.skipToBoundary fuel T.tokens ⟨i + 1, d⟩)
  | 0, _, i, _, hi, hm, _ => absurd hi (Nat.not_lt.mpr hm)
  | m + 1, fuel + 1, i, hprevious, hi, hm, hfuel => by
      have hstay : T.Agrees d (i + 1) false (.ok ((), T.tokens.drop (i + 1)))
          ((pure () : Walk Unit) T.tokens ⟨i + 1, d⟩) := .loose (Nat.le_refl _) hi
      rw [T.drop_eq hi] at hstay ⊢
      rw [Grammar.skipToBoundary, Walk.skipToBoundary, Walk.bind_of_ok (atEnd_apply hi)]
      by_cases hend : T.tokens[i + 1].kind = .endOfInput
      · rw [if_pos (by simp [hend]), if_pos (by simpa using hend)]
        exact hstay
      rw [if_neg (mt of_decide_eq_true hend), Walk.bind_of_ok (previous_apply hprevious)]
      by_cases hsemicolon : T.tokens[i].kind = .symbol .semicolon
      · rw [if_pos (by simp [hsemicolon]), if_pos hsemicolon]
        exact hstay
      rw [if_neg hsemicolon, Walk.bind_of_ok (peek_apply hi)]
      by_cases hword : Grammar.resumesAt T.tokens[i + 1].kind
      · rw [if_pos (by simp [hword]), if_pos hword]
        exact hstay
      rw [if_neg (by simp [hend, hsemicolon, hword]), if_neg hword,
        Walk.bind_of_ok (advance_apply hi hend)]
      have hmore : T.Agrees d (i + 1 + 1) false _ _ :=
        skipToBoundary hi (T.succ_lt hi hend) (by omega) (Nat.le_of_succ_le_succ hfuel)
      exact hmore.behind (Nat.lt_succ_self _)

/-- Skipping takes a token, unless it is at the end. -/
theorem synchronize {fuel : Nat} (hi : i < T.tokens.length) (hn : T.tokens.length ≤ i + n)
    (hfuel : n ≤ fuel) :
    T.Agrees d i (T.tokens[i].kind ≠ .endOfInput) (.ok ((), Grammar.synchronize (T.tokens.drop i)))
      (Walk.synchronize fuel T.tokens ⟨i, d⟩) := by
  rw [T.drop_eq hi, Grammar.synchronize, Walk.synchronize]
  by_cases hend : T.tokens[i].kind = .endOfInput
  · obtain ⟨fuel, rfl⟩ : ∃ k, fuel = k + 1 := ⟨fuel - 1, by omega⟩
    rw [if_pos hend, ← T.drop_eq hi, Walk.bind_of_ok (advance_apply_end hi hend),
      Walk.skipToBoundary, Walk.bind_of_ok (atEnd_apply hi), if_pos (decide_eq_true hend)]
    exact .ok (Nat.le_refl i) hi (by simp [hend])
  · rw [if_neg hend, Walk.bind_of_ok (advance_apply hi hend)]
    have hskip : T.Agrees d (i + 1) false _ _ :=
      skipToBoundary hi (T.succ_lt hi hend) (by omega) hfuel
    exact hskip.behind (Nat.lt_succ_self i)

/-! ### Attempts -/

theorem drop_inj (hi : i < T.tokens.length) (hj : j < T.tokens.length)
    (h : T.tokens.drop i = T.tokens.drop j) : i = j := by
  have hlength := congrArg List.length h
  rw [List.length_drop, List.length_drop] at hlength
  omega

/-- What a parser answers leaves only one answer and one cursor. -/
theorem Agrees.unique {x : Except ParseFailure (α × List Token)}
    {y y' : Option (Except SyntaxError α × Cursor)} (h : T.Agrees d i s x y)
    (h' : T.Agrees d i s x y') : y = y' := by
  cases h with
  | @ok a j _ hj _ =>
      generalize hx : Except.ok (a, T.tokens.drop j) = x at h'
      cases h' with
      | @ok a' j' _ hj' _ =>
          obtain ⟨rfl, hdrop⟩ := Prod.mk.inj (Except.ok.inj hx)
          rw [T.drop_inj hj hj' hdrop]
      | error => cases hx
  | @error e j _ hj =>
      generalize hx : Except.error (ParseFailure.mk e (T.tokens.drop j)) = x at h'
      cases h' with
      | ok => cases hx
      | @error e' j' _ hj' =>
          obtain ⟨rfl, hdrop⟩ := ParseFailure.mk.inj (Except.error.inj hx)
          rw [T.drop_inj hj hj' hdrop]

/-- There is an answer, and the cursor is on a token and at the depths it had. -/
theorem Agrees.exists_answer {x : Except ParseFailure (α × List Token)}
    {y : Option (Except SyntaxError α × Cursor)} (h : T.Agrees d i true x y) :
    ∃ answer c, y = some (answer, c) ∧ c.current < T.tokens.length ∧ c.depths = d ∧
      ∀ a, answer = .ok a → i < c.current := by
  cases h with
  | ok _ hj hstrict => exact ⟨_, _, rfl, hj, rfl, fun _ _ => hstrict rfl⟩
  | error _ hj => exact ⟨_, _, rfl, hj, rfl, fun _ ha => by cases ha⟩

/-- Reading goes on from one place, whatever the bound. -/
theorem exists_synchronize (hi : i < T.tokens.length) (hn : T.tokens.length ≤ i + n) :
    ∃ j, i ≤ j ∧ j < T.tokens.length ∧ (T.tokens[i].kind ≠ .endOfInput → i < j) ∧
      Grammar.synchronize (T.tokens.drop i) = T.tokens.drop j ∧
      ∀ fuel, n ≤ fuel → Walk.synchronize fuel T.tokens ⟨i, d⟩ = some (.ok (), ⟨j, d⟩) := by
  have hfirst := T.synchronize (d := d) hi hn (Nat.le_refl n)
  have hany := fun fuel (hfuel : n ≤ fuel) => T.synchronize (d := d) hi hn hfuel
  generalize Grammar.synchronize (T.tokens.drop i) = rest at hfirst hany
  generalize Walk.synchronize n T.tokens ⟨i, d⟩ = y at hfirst
  cases hfirst with
  | @ok _ j hle hj hmoves =>
      refine ⟨j, hle, hj, fun hend => hmoves (decide_eq_true hend), rfl, fun fuel hfuel => ?_⟩
      exact (hany fuel hfuel).unique (.ok hle hj hmoves)

variable {rules : Grammar.Rules} {walks : Walk.Rules}

/-- All walks that follow the rules make the same attempt. -/
theorem exists_turn (h : T.FollowsRules n rules walks) (hi : i + 1 < T.tokens.length)
    (hn : T.tokens.length ≤ i + n) :
    ∃ a : Walk.Attempt, a.start = ⟨i, ⟨0, 0⟩⟩ ∧ i < a.resumed.current ∧
      a.resumed.depths = ⟨0, 0⟩ ∧ a.Orderly T.tokens ∧
      a.Reads (rules.declaration ⟨false, false⟩) T.tokens ∧
      ∀ walks, T.FollowsRules n rules walks →
        Walk.turn walks T.tokens ⟨i, ⟨0, 0⟩⟩ = some (.ok a, a.resumed) := by
  have hlt : i < T.tokens.length := Nat.lt_of_succ_lt hi
  have hfirst := h.declaration ⟨0, 0⟩ i hlt hn
  have hany := fun walks (h : T.FollowsRules n rules walks) => h.declaration ⟨0, 0⟩ i hlt hn
  generalize hread : rules.declaration _ (T.tokens.drop i) = x at hfirst hany
  generalize walks.declaration T.tokens ⟨i, ⟨0, 0⟩⟩ = y at hfirst
  cases hfirst with
  | @ok st j hle hj hstrict =>
      refine ⟨⟨⟨i, ⟨0, 0⟩⟩, .ok st, ⟨j, ⟨0, 0⟩⟩, ⟨j, ⟨0, 0⟩⟩⟩, rfl, hstrict rfl, rfl, ?_, .ok hread,
        fun walks h => ?_⟩
      · exact
          { outside := rfl
            before := hi
            stop_lt := hj
            resumed_lt := hj
            read := fun _ _ => ⟨hstrict rfl, rfl⟩
            failed := fun _ he => by cases he }
      · have hrun := (hany walks h).unique (.ok hle hj hstrict)
        rw [Walk.turn, Walk.bind_of_ok (p := Walk.cursor) rfl,
          Walk.bind_of_ok (Walk.attempt_apply hrun), Walk.bind_of_ok (p := Walk.cursor) rfl]
        rfl
  | @error e j hle hj =>
      obtain ⟨k, hjk, hk, hmoves, hsync, hskip⟩ := T.exists_synchronize (d := ⟨0, 0⟩) hj
        (Nat.le_trans hn (Nat.add_le_add_right hle n))
      have hbehind : j < k ∨ j + 1 = T.tokens.length := by
        by_cases hend : T.tokens[j].kind = .endOfInput
        · exact .inr ((T.ended j hj).mp hend)
        · exact .inl (hmoves hend)
      refine ⟨⟨⟨i, ⟨0, 0⟩⟩, .error e, ⟨j, ⟨0, 0⟩⟩, ⟨k, ⟨0, 0⟩⟩⟩, rfl, ?_, rfl, ?_,
        .error hread hsync, fun walks h => ?_⟩
      · -- an error at the first token is not at the end, so that token is skipped
        show i < k
        omega
      · exact
          { outside := rfl
            before := hi
            stop_lt := hj
            resumed_lt := hk
            read := fun _ hs => by cases hs
            failed := fun _ _ => ⟨hle, hbehind⟩ }
      · have hrun := (hany walks h).unique (.error hle hj)
        rw [Walk.turn, Walk.bind_of_ok (p := Walk.cursor) rfl,
          Walk.bind_of_ok (Walk.attempt_apply hrun), Walk.bind_of_ok (p := Walk.cursor) rfl]
        show ((Walk.synchronize walks.passes >>= _) T.tokens ⟨j, ⟨0, 0⟩⟩) = _
        rw [Walk.bind_of_ok (hskip walks.passes (Nat.le_of_lt h.passes'))]
        rfl

/-- A text is read to its end in attempts that do not depend on the bounds.  The induction is on the
tokens to go, since with each attempt there are fewer. -/
theorem exists_attempts (h : T.FollowsRules n rules walks) : ∀ {m fuel i : Nat}, m ≤ n → m ≤ fuel →
    i < T.tokens.length → T.tokens.length ≤ i + m → ∃ as : List Walk.Attempt,
      (∀ a ∈ as, a.Orderly T.tokens) ∧
      Grammar.program (rules.declaration ⟨false, false⟩) fuel (T.tokens.drop i) =
        (Walk.statements as, Walk.errors as) ∧
      ∀ walks bound, T.FollowsRules n rules walks → m ≤ bound →
        Walk.attempts walks bound T.tokens ⟨i, ⟨0, 0⟩⟩ =
          some (.ok as, ⟨T.tokens.length - 1, ⟨0, 0⟩⟩)
  | 0, _, i, _, _, hi, hn => absurd hi (Nat.not_lt.mpr hn)
  | m + 1, fuel + 1, i, hm, hfuel, hi, hn => by
      by_cases hend : T.tokens[i].kind = .endOfInput
      · have hlast : i = T.tokens.length - 1 := by
          have hsucc := (T.ended i hi).mp hend
          omega
        refine ⟨[], fun _ ha => (by cases ha), ?_, fun walks bound h hbound => ?_⟩
        · rw [Grammar.program, T.current_drop hi, if_pos hend]
          rfl
        · obtain ⟨bound, rfl⟩ : ∃ k, bound = k + 1 := ⟨bound - 1, by omega⟩
          rw [Walk.attempts, Walk.bind_of_ok (atEnd_apply hi), if_pos (decide_eq_true hend),
            ← hlast]
          rfl
      · obtain ⟨a, hstart, hmoves, hdepths, horderly, hreads, hturn⟩ :=
          exists_turn h (T.succ_lt hi hend) (by omega)
        obtain ⟨as, hall, hprogram, hattempts⟩ := exists_attempts h (m := m) (by omega)
          (Nat.le_of_succ_le_succ hfuel) horderly.resumed_lt (by omega)
        refine ⟨a :: as, List.forall_mem_cons.mpr ⟨horderly, hall⟩, ?_,
          fun walks bound h hbound => ?_⟩
        · have hcurrent : a.start.current = i := by rw [hstart]
          have hnext := hreads.program_eq (by rwa [hcurrent, T.current_drop hi]) hprogram
          rwa [hcurrent] at hnext
        · obtain ⟨bound, rfl⟩ : ∃ k, bound = k + 1 := ⟨bound - 1, by omega⟩
          have hresumed : a.resumed = ⟨a.resumed.current, ⟨0, 0⟩⟩ := by rw [← hdepths]
          rw [Walk.attempts, Walk.bind_of_ok (atEnd_apply hi), if_neg (mt of_decide_eq_true hend),
            Walk.bind_of_ok (hturn walks h), hresumed,
            Walk.bind_of_ok (hattempts walks bound h (by omega))]
          rfl

/-- Tokens with an end mark behind them. -/
def ofFront (front : List Token) (mark : Token) (hmark : mark.kind = .endOfInput)
    (hfront : ∀ t ∈ front, t.kind ≠ .endOfInput) : Track where
  tokens := front ++ [mark]
  nonempty := by simp
  ended i hi := by
    rw [List.length_append, List.length_singleton] at hi ⊢
    by_cases hlt : i < front.length
    · rw [List.getElem_append_left hlt]
      exact iff_of_false (hfront _ (List.getElem_mem hlt)) (by omega)
    · have heq : i = front.length := by omega
      subst heq
      simp [hmark]

end Track

/-! ### Whole texts -/

namespace Walk

variable {as : List Attempt}

theorem mem_errors {e : SyntaxError} : e ∈ errors as ↔ ∃ a ∈ as, a.answer = .error e := by
  rw [errors, List.mem_filterMap]
  refine exists_congr fun a => and_congr_right fun _ => ?_
  cases a.answer <;> simp

/-- Errors are answered just if an attempt has failed. -/
theorem outcome_eq_error_iff :
    (∃ errors, outcome as = .error errors) ↔ ∃ a ∈ as, ∃ e, a.answer = .error e := by
  rw [outcome]
  cases herrors : errors as with
  | nil =>
      refine iff_of_false (fun ⟨_, h⟩ => by cases h) ?_
      rintro ⟨a, ha, e, he⟩
      have hmem : e ∈ errors as := mem_errors.mpr ⟨a, ha, he⟩
      rw [herrors] at hmem
      cases hmem
  | cons e more =>
      obtain ⟨a, ha, he⟩ := mem_errors.mp (herrors ▸ List.mem_cons_self : e ∈ errors as)
      exact iff_of_true ⟨_, rfl⟩ ⟨a, ha, e, he⟩

end Walk

/-- Tokens that end in their only end mark are read to that mark, with every bound above their
number and by the same attempts.  That there is an answer says that no token was looked for outside
of them and that the cursor was never moved behind the mark.

Each attempt starts outside of loops and functions.  A statement takes a token, and behind an error
another one is taken unless the mark is reached.  What is answered are the statements, or the errors
if there are any.  Every declaration, wherever in the tokens and at whatever depths it starts, has
an answer and comes back to these depths, and if it is read it takes a token. -/
theorem reading_never_stalls (front : List Token) (mark : Token) (hmark : mark.kind = .endOfInput)
    (hfront : ∀ t ∈ front, t.kind ≠ .endOfInput) :
    (∃ attempts : List Walk.Attempt,
      (∀ bound, (front ++ [mark]).length < bound →
        Walk.program bound (front ++ [mark]) ⟨0, ⟨0, 0⟩⟩ =
          some (.ok attempts, ⟨front.length, ⟨0, 0⟩⟩)) ∧
      (∀ a ∈ attempts, a.Orderly (front ++ [mark])) ∧
      Grammar.parseTokens (front ++ [mark]) = Walk.outcome attempts ∧
      ((∃ errors, Grammar.parseTokens (front ++ [mark]) = .error errors) ↔
        ∃ a ∈ attempts, ∃ e, a.answer = .error e)) ∧
    ∀ passes depth c, (front ++ [mark]).length < passes →
      (front ++ [mark]).length ≤ c.current + depth → c.current ≤ front.length →
      ∃ answer c', (Walk.rulesAt passes depth).declaration (front ++ [mark]) c = some (answer, c') ∧
        c'.current ≤ front.length ∧ c'.depths = c.depths ∧
        ∀ s, answer = .ok s → c.current < c'.current := by
  let T := Track.ofFront front mark hmark hfront
  have hlength : T.tokens.length = front.length + 1 := List.length_append
  have hrules : ∀ bound, T.tokens.length < bound → T.FollowsRules T.tokens.length
      (Grammar.rulesAt (T.tokens.length + 1) (T.tokens.length + 1)) (Walk.rulesAt bound bound) :=
    fun bound hbound => .rulesAt (Nat.lt_succ_self _) hbound (Nat.le_succ _) (Nat.le_of_lt hbound)
  obtain ⟨attempts, horderly, hprogram, hattempts⟩ :=
    Track.exists_attempts (hrules _ (Nat.lt_succ_self _)) (Nat.le_refl _)
      (Nat.le_succ T.tokens.length) T.nonempty (Nat.le_of_eq (Nat.zero_add _).symm)
  have hparse : Grammar.parseTokens (front ++ [mark]) = Walk.outcome attempts := by
    show Grammar.parseTokens T.tokens = _
    rw [List.drop_zero] at hprogram
    simp only [Grammar.parseTokens, hprogram]
    rfl
  refine ⟨⟨attempts, fun bound hbound => ?_, horderly, hparse, ?_⟩, ?_⟩
  · have hrun := hattempts _ bound (hrules bound hbound) (Nat.le_of_lt hbound)
    rwa [hlength] at hrun
  · rw [hparse]
    exact Walk.outcome_eq_error_iff
  · rintro passes depth ⟨i, d⟩ hpasses hdepth hi
    replace hpasses : T.tokens.length < passes := hpasses
    replace hdepth : T.tokens.length ≤ i + depth := hdepth
    replace hi : i < T.tokens.length := hlength ▸ Nat.lt_succ_of_le hi
    have hrules : T.FollowsRules (T.tokens.length - i) (Grammar.rulesAt passes depth)
        (Walk.rulesAt passes depth) :=
      .rulesAt (by omega) (by omega) (by omega) (by omega)
    obtain ⟨answer, c, hrun, hc, hdepths, hmoves⟩ :=
      (hrules.declaration d i hi (by omega)).exists_answer
    rw [hlength] at hc
    exact ⟨answer, c, hrun, Nat.le_of_lt_succ hc, hdepths, hmoves⟩

/-- A loop in a function that does not begin well, and a `break` behind it. -/
def brokenLoop : List Token :=
  [⟨.keyword .fun, "fun", none, 1⟩, ⟨.identifier, "f", none, 1⟩, ⟨.symbol .leftParen, "(", none, 1⟩,
    ⟨.symbol .rightParen, ")", none, 1⟩, ⟨.symbol .leftBrace, "\x7b", none, 1⟩,
    ⟨.keyword .loop, "loop", none, 1⟩, ⟨.symbol .leftBrace, "\x7b", none, 1⟩,
    ⟨.symbol .semicolon, ";", none, 1⟩, ⟨.keyword .break, "break", none, 2⟩,
    ⟨.symbol .semicolon, ";", none, 2⟩]

/-- It is read to its end: the loop and the function are left behind with the error in them. -/
theorem reading_never_stalls_after_an_error :
    (Token.endOfInput 2).kind = .endOfInput ∧ (∀ t ∈ brokenLoop, t.kind ≠ .endOfInput) ∧
      (∃ attempts : List Walk.Attempt,
        (∀ bound, 11 < bound → Walk.program bound (brokenLoop ++ [.endOfInput 2]) ⟨0, ⟨0, 0⟩⟩ =
          some (.ok attempts, ⟨10, ⟨0, 0⟩⟩)) ∧
        (∀ a ∈ attempts, a.Orderly (brokenLoop ++ [.endOfInput 2])) ∧
        Grammar.parseTokens (brokenLoop ++ [.endOfInput 2]) = Walk.outcome attempts ∧
        ∃ a ∈ attempts, ∃ e, a.answer = .error e) := by
  have hmark : (Token.endOfInput 2).kind = .endOfInput := rfl
  have hfront : ∀ t ∈ brokenLoop, t.kind ≠ .endOfInput := by decide
  obtain ⟨⟨attempts, hrun, horderly, hparse, herror⟩, -⟩ :=
    reading_never_stalls brokenLoop (.endOfInput 2) hmark hfront
  exact ⟨hmark, hfront, attempts, hrun, horderly, hparse, herror.mp ⟨_, by cbv⟩⟩

example : Grammar.parseTokens (brokenLoop ++ [.endOfInput 2]) = .error
    [.near ⟨.symbol .semicolon, ";", none, 1⟩ (.lacking .expression),
      .near ⟨.keyword .break, "break", none, 2⟩ .breakOutsideLoop] := by cbv

end Classlet
