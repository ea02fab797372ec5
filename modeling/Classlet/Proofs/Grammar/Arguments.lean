import Classlet.Grammar.Expression
import Classlet.Proofs.Grammar.Lookahead

/-! # The arguments of a call

Arguments are read one by one, and each is checked against those before it.  `Collects` is that
order of checks; it admits the same arguments as the conditions on all of them together
(`collects_iff`). -/

namespace Classlet.Grammar

open Classlet.Parser

/-! ### Which arguments are admitted -/

/-- Positional arguments and those by name, with one more. -/
def addArgument (positional : List Expr) (keywords : List KeywordArg) :
    Expr ⊕ KeywordArg → List Expr × List KeywordArg
  | .inl x => (positional ++ [x], keywords)
  | .inr k => (positional, keywords ++ [k])

/-- One more argument is allowed behind `count` of them, of which `keywords` are by name. -/
structure MayAdd (count : Nat) (keywords : List KeywordArg) (next : Expr ⊕ KeywordArg) : Prop where
  limit : count < argumentLimit
  order : ∀ x, next = .inl x → keywords = []
  distinct : ∀ k, next = .inr k → k.name ∉ keywords.map KeywordArg.name

/-- Arguments that are allowed one after the other, behind those that are there. -/
inductive Collects : List Expr → List KeywordArg → List (Expr ⊕ KeywordArg) →
    List Expr → List KeywordArg → Prop where
  | nil {ps : List Expr} {ks : List KeywordArg} : Collects ps ks [] ps ks
  | cons {ps ps' : List Expr} {ks ks' : List KeywordArg} {next : Expr ⊕ KeywordArg}
      {more : List (Expr ⊕ KeywordArg)} :
      MayAdd (ps.length + ks.length) ks next →
      Collects (addArgument ps ks next).1 (addArgument ps ks next).2 more ps' ks' →
      Collects ps ks (next :: more) ps' ks'

/-- The arguments in order: those by position, then those by name. -/
def inOrder (positional : List Expr) (keywords : List KeywordArg) : List (Expr ⊕ KeywordArg) :=
  positional.map .inl ++ keywords.map .inr

variable {ps ps' : List Expr} {ks ks' : List KeywordArg}

theorem positional_inOrder : (inOrder ps ks).filterMap Sum.getLeft? = ps := by
  simp [inOrder, List.filterMap_map, Function.comp_def]

theorem keywords_inOrder : (inOrder ps ks).filterMap Sum.getRight? = ks := by
  simp [inOrder, List.filterMap_map, Function.comp_def]

theorem inOrder_inj (h : inOrder ps ks = inOrder ps' ks') : ps = ps' ∧ ks = ks' := by
  have hp := congrArg (List.filterMap Sum.getLeft?) h
  have hk := congrArg (List.filterMap Sum.getRight?) h
  rw [positional_inOrder, positional_inOrder] at hp
  rw [keywords_inOrder, keywords_inOrder] at hk
  exact ⟨hp, hk⟩

/-- Behind an argument by name there is none by position. -/
theorem pairwise_inOrder : (inOrder ps ks).Pairwise fun a b => a.isRight → b.isRight := by
  rw [inOrder, List.pairwise_append, List.pairwise_map, List.pairwise_map]
  simp [List.pairwise_iff_forall_sublist]

/-- The next argument is allowed behind those before it if all together are admitted. -/
theorem Admits.mayAdd {next : Expr ⊕ KeywordArg} {more : List (Expr ⊕ KeywordArg)}
    (h : Admits (inOrder ps ks ++ next :: more) ps' ks') :
    MayAdd (ps.length + ks.length) ks next := by
  have horder := h.order
  constructor
  case limit =>
    have hlimit := h.limit
    simp [inOrder] at hlimit
    omega
  case order =>
    rintro x rfl
    have hpairs : (inOrder ps ks ++ .inl x :: more).Pairwise fun a b => a.isRight → b.isRight := by
      rw [horder]
      exact pairwise_inOrder
    rw [inOrder, List.pairwise_append] at hpairs
    rw [List.eq_nil_iff_forall_not_mem]
    intro k hk
    have hright := hpairs.2.2 (.inr k) (by simp [hk]) (.inl x) (by simp) rfl
    cases hright
  case distinct =>
    rintro k rfl hk
    have hkeywords : ks ++ k :: more.filterMap Sum.getRight? = ks' := by
      have hright := congrArg (List.filterMap Sum.getRight?) horder
      rw [List.filterMap_append, keywords_inOrder] at hright
      exact hright.trans keywords_inOrder
    have hdistinct := h.distinct
    rw [← hkeywords, List.map_append, List.nodup_append] at hdistinct
    exact hdistinct.2.2 k.name hk k.name (by simp) rfl

theorem inOrder_addArgument {next : Expr ⊕ KeywordArg} (h : ∀ x, next = .inl x → ks = []) :
    inOrder (addArgument ps ks next).1 (addArgument ps ks next).2 = inOrder ps ks ++ [next] := by
  cases next with
  | inl x =>
      obtain rfl := h x rfl
      simp [addArgument, inOrder]
  | inr k => simp [addArgument, inOrder]

/-- The checks one by one come to the same as the conditions on all arguments. -/
theorem collects_iff {more : List (Expr ⊕ KeywordArg)}
    (hlimit : ps.length + ks.length ≤ argumentLimit)
    (hdistinct : (ks.map KeywordArg.name).Nodup) :
    Collects ps ks more ps' ks' ↔ Admits (inOrder ps ks ++ more) ps' ks' := by
  induction more generalizing ps ks with
  | nil =>
      rw [List.append_nil]
      constructor
      · rintro ⟨⟩
        exact ⟨rfl, by simpa [inOrder] using hlimit, hdistinct⟩
      · intro h
        obtain ⟨rfl, rfl⟩ := inOrder_inj h.order
        exact .nil
  | cons next more ih =>
      have hnext : MayAdd (ps.length + ks.length) ks next →
          (Collects (addArgument ps ks next).1 (addArgument ps ks next).2 more ps' ks' ↔
            Admits (inOrder ps ks ++ next :: more) ps' ks') := by
        intro hadd
        rw [ih, inOrder_addArgument hadd.order, List.append_assoc, List.singleton_append]
        · have := hadd.limit
          cases next <;> simp [addArgument] <;> omega
        · cases next with
          | inl x => exact hdistinct
          | inr k =>
              rw [addArgument, List.map_append, List.nodup_append]
              refine ⟨hdistinct, by simp, fun a ha b hb hab => hadd.distinct k rfl ?_⟩
              obtain rfl : b = k.name := by simpa using hb
              rwa [← hab]
      constructor
      · rintro (_ | ⟨hadd, hmore⟩)
        exact (hnext hadd).mp hmore
      · intro h
        exact .cons h.mayAdd ((hnext h.mayAdd).mpr h)

/-! ### Reading arguments -/

/-- The rules that others refer back to are exact on up to `n` tokens. -/
structure Rules.Exact (n : Nat) (rules : Rules) : Prop where
  passes : n < rules.passes
  expression : Parser.Exact n rules.expression (Derives .disjunction) Level.disjunction.Stops
  signed : Parser.Exact n rules.signed (Derives .sign) Level.sign.Stops

variable {n : Nat} {rules : Rules} {ts rest : List Token}

theorem exists_cons_of_next {k : TokenKind} (h : next ts = k) (hk : k ≠ .endOfInput) :
    ∃ t us, ts = t :: us ∧ t.kind = k := by
  cases ts with
  | nil => exact absurd h.symm hk
  | cons t us => exact ⟨t, us, rfl, h⟩

section argument
variable {count : Nat} {ks : List KeywordArg} {a : Expr ⊕ KeywordArg}

theorem argument_of_keyword (hcount : count < argumentLimit) {name equal : Token} {vs : List Token}
    (hname : name.kind = .identifier) (hequal : equal.kind = .symbol .equal) :
    argument rules count ks (name :: equal :: vs) =
      (if ks.any fun k => k.name == name.lexeme then failAt name (.repeatedKeyword name.lexeme)
        else do
          let value ← rules.expression
          pure (.inr (.mk name.lexeme value)) : Parser (Expr ⊕ KeywordArg)) vs := by
  have haccept : ∀ f : Option Token → Parser (Expr ⊕ KeywordArg),
      (accept (.symbol .equal) >>= f) (equal :: vs) = f (some equal) vs := fun f => by
    simp [accept, hequal]
  have hidentifier : ∀ f : Token → Parser (Expr ⊕ KeywordArg),
      (identifier .expression >>= f) (name :: equal :: vs) = f name (equal :: vs) := fun f => by
    simp [identifier, expect, accept, hname]
  have hlimit : ¬ maxArguments ≤ count := Nat.not_le_of_lt hcount
  rw [argument, if_neg hlimit, check_bind, checkSecond_bind, if_pos (by simp [hname, hequal]),
    hidentifier, haccept]

theorem argument_of_not_keyword (hcount : count < argumentLimit)
    (h : ¬ (next ts = .identifier ∧ next ts.tail = .symbol .equal)) :
    argument rules count ks ts =
      (if !ks.isEmpty then fail .positionalAfterKeyword
        else do
          let value ← rules.expression
          pure (.inl value) : Parser (Expr ⊕ KeywordArg)) ts := by
  have hlimit : ¬ maxArguments ≤ count := Nat.not_le_of_lt hcount
  rw [argument, if_neg hlimit, check_bind, checkSecond_bind, if_neg (by simpa using h)]

theorem argument_iff_keyword (hrest : next rest ≠ .symbol .equal) {name equal : Token}
    {vs : List Token} (hname : name.kind = .identifier) (hequal : equal.kind = .symbol .equal) :
    (∃ front, name :: equal :: vs = front ++ rest ∧ Argument (Derives .disjunction) front a) ↔
      ∃ us x, vs = us ++ rest ∧ a = .inr (.mk name.lexeme x) ∧ Derives .disjunction us x := by
  constructor
  · rintro ⟨front, hfront, hx | ⟨-, -, hx⟩⟩
    · have hne := hx.not_keyword rest hrest
      rw [← hfront] at hne
      exact absurd hequal (hne hname)
    · cases hfront
      exact ⟨_, _, rfl, rfl, hx⟩
  · rintro ⟨us, x, rfl, rfl, hx⟩
    exact ⟨name :: equal :: us, rfl, .keyword hname hequal hx⟩

/-- What does not look like an argument by name is none. -/
theorem argument_iff_positional
    (hlook : ¬ (next ts = .identifier ∧ next ts.tail = .symbol .equal)) :
    (∃ front, ts = front ++ rest ∧ Argument (Derives .disjunction) front a) ↔
      ∃ us x, ts = us ++ rest ∧ a = .inl x ∧ Derives .disjunction us x := by
  constructor
  · rintro ⟨front, rfl, hx | ⟨hname, hequal, hx⟩⟩
    · exact ⟨_, _, rfl, rfl, hx⟩
    · exact absurd ⟨hname, hequal⟩ hlook
  · rintro ⟨us, x, rfl, rfl, hx⟩
    exact ⟨us, rfl, .positional hx⟩

variable (h : rules.Exact n) (hts : Clean n ts) (hrest : next rest ≠ .symbol .equal)
include h hts hrest

/-- An argument is allowed behind the others and derived, if no equals sign follows it. -/
theorem argument_eq_ok :
    argument rules count ks ts = .ok (a, rest) ↔ MayAdd count ks a ∧
      Level.disjunction.Stops (next rest) ∧
      ∃ front, ts = front ++ rest ∧ Argument (Derives .disjunction) front a := by
  by_cases hcount : count < argumentLimit
  case neg =>
    have hlimit : maxArguments ≤ count := Nat.le_of_not_lt hcount
    rw [argument, if_pos hlimit, fail_eq_ok]
    exact iff_of_false id fun ⟨hadd, _⟩ => hcount hadd.limit
  by_cases hlook : next ts = .identifier ∧ next ts.tail = .symbol .equal
  case pos =>
    obtain ⟨name, us, rfl, hname⟩ := exists_cons_of_next hlook.1 (fun h => by cases h)
    obtain ⟨equal, vs, rfl, hequal⟩ := exists_cons_of_next hlook.2 (fun h => by cases h)
    rw [argument_of_keyword hcount hname hequal, argument_iff_keyword hrest hname hequal]
    split
    case isTrue hused =>
      rw [failAt_eq_ok]
      refine iff_of_false id ?_
      rintro ⟨hadd, -, us, x, -, rfl, -⟩
      refine hadd.distinct _ rfl ?_
      simpa [KeywordArg.name] using hused
    case isFalse hused =>
      simp only [bind_eq_ok, pure_eq_ok, h.expression vs hts.cons.cons]
      constructor
      · rintro ⟨x, _, ⟨us, rfl, hx, hstop⟩, rfl, rfl⟩
        refine ⟨⟨hcount, fun _ h => (by cases h), ?_⟩, hstop, us, x, rfl, rfl, hx⟩
        rintro _ ⟨⟩
        simpa [KeywordArg.name] using hused
      · rintro ⟨-, hstop, us, x, rfl, rfl, hx⟩
        exact ⟨x, rest, ⟨us, rfl, hx, hstop⟩, rfl, rfl⟩
  case neg =>
    rw [argument_of_not_keyword hcount hlook, argument_iff_positional hlook]
    split
    case isTrue hks =>
      rw [fail_eq_ok]
      refine iff_of_false id ?_
      rintro ⟨hadd, -, us, x, -, rfl, -⟩
      rw [hadd.order x rfl] at hks
      cases hks
    case isFalse hks =>
      simp only [bind_eq_ok, pure_eq_ok, h.expression ts hts]
      constructor
      · rintro ⟨x, _, ⟨us, rfl, hx, hstop⟩, rfl, rfl⟩
        refine ⟨⟨hcount, fun _ _ => ?_, fun _ h => (by cases h)⟩, hstop, us, x, rfl, rfl, hx⟩
        simpa using hks
      · rintro ⟨-, hstop, us, x, rfl, rfl, hx⟩
        exact ⟨x, rest, ⟨us, rfl, hx, hstop⟩, rfl, rfl⟩

end argument

section call

theorem arguments_succ {fuel : Nat} {ps : List Expr} {ks : List KeywordArg}
    {r : List Expr × List KeywordArg} :
    arguments rules (fuel + 1) ps ks ts = .ok (r, rest) ↔
      ∃ a mid, argument rules (ps.length + ks.length) ks ts = .ok (a, mid) ∧
        ((∃ comma mid', mid = comma :: mid' ∧ comma.kind = .symbol .comma ∧
          arguments rules fuel (addArgument ps ks a).1 (addArgument ps ks a).2 mid' =
            .ok (r, rest)) ∨
          next mid ≠ .symbol .comma ∧ r = addArgument ps ks a ∧ rest = mid) := by
  rw [arguments, bind_eq_ok]
  refine exists_congr fun a => exists_congr fun mid => and_congr_right fun _ => ?_
  have hmore : ∀ r' : List Expr × List KeywordArg,
      (do if ← acceptSymbol .comma then arguments rules fuel r'.1 r'.2 else pure r') mid =
        .ok (r, rest) ↔
      (∃ comma mid', mid = comma :: mid' ∧ comma.kind = .symbol .comma ∧
        arguments rules fuel r'.1 r'.2 mid' = .ok (r, rest)) ∨
        next mid ≠ .symbol .comma ∧ r = r' ∧ rest = mid := by
    intro r'
    rw [acceptSymbol_bind]
    simp only [if_true, Bool.false_eq_true, if_false, pure_eq_ok]
  cases a with
  | inl x => exact hmore (ps ++ [x], ks)
  | inr k => exact hmore (ps, ks ++ [k])

variable (h : rules.Exact n)
include h

/-- Arguments up to a closing parenthesis are derived, and allowed one after the other. -/
theorem arguments_eq_ok : ∀ fuel ps ks ts, Clean n ts → ts.length ≤ fuel →
    ∀ ps' ks' rest, next rest = .symbol .rightParen →
      (arguments rules fuel ps ks ts = .ok ((ps', ks'), rest) ↔ ∃ front as, ts = front ++ rest ∧
        Separated (Argument (Derives .disjunction)) front as ∧ Collects ps ks as ps' ks')
  | 0, ps, ks, ts, _, hfuel, ps', ks', rest, hrest => by
      obtain rfl : ts = [] := List.length_eq_zero_iff.mp (by omega)
      rw [arguments, pure_eq_ok]
      constructor
      · rintro ⟨-, rfl⟩
        cases hrest
      · rintro ⟨front, as, hnil, -⟩
        obtain ⟨-, rfl⟩ := List.append_eq_nil_iff.mp hnil.symm
        cases hrest
  | fuel + 1, ps, ks, ts, hts, hfuel, ps', ks', rest, hrest => by
      have ih := arguments_eq_ok fuel
      rw [arguments_succ]
      constructor
      · rintro ⟨a, mid, ha, ⟨comma, mid', rfl, hcomma, hmore⟩ | ⟨-, heq, rfl⟩⟩
        · have hne : next (comma :: mid') ≠ .symbol .equal := by simp [hcomma]
          obtain ⟨hadd, -, front, rfl, hfront⟩ := (argument_eq_ok h hts hne).mp ha
          obtain ⟨front', as, rfl, hsep, hcollects⟩ :=
            (ih _ _ mid' hts.suffix.cons (by simp at hfuel; omega) ps' ks' rest hrest).mp hmore
          exact ⟨front ++ comma :: front', a :: as, by simp, .more hfront hcomma hsep,
            .cons hadd hcollects⟩
        · obtain ⟨hadd, -, front, rfl, hfront⟩ := (argument_eq_ok h hts (by simp [hrest])).mp ha
          refine ⟨front, [a], rfl, .one hfront, .cons hadd ?_⟩
          rw [← heq]
          exact .nil
      · rintro ⟨front, as, rfl, hsep, hcollects⟩
        obtain ⟨us, a, ha, ⟨rfl, rfl⟩ | ⟨comma, vs, more, rfl, rfl, hcomma, hmore⟩⟩ :=
          separated_iff.mp hsep
        · rcases hcollects with _ | ⟨hadd, hnil⟩
          refine ⟨a, rest, (argument_eq_ok h hts (by simp [hrest])).mpr ⟨hadd, ?_, _, rfl, ha⟩,
            .inr ?_⟩
          · exact Level.stops_of_none (by simp [hrest, continues?]) _
          · cases hnil
            exact ⟨by simp [hrest], rfl, rfl⟩
        · rcases hcollects with _ | ⟨hadd, hcollects⟩
          rw [List.append_assoc] at hts ⊢
          refine ⟨a, comma :: (vs ++ rest), (argument_eq_ok h hts (by simp [hcomma])).mpr
            ⟨hadd, Level.stops_before hcomma rfl, us, rfl, ha⟩, .inl ⟨comma, _, rfl, hcomma, ?_⟩⟩
          exact (ih _ _ _ hts.suffix.cons (by simp at hfuel ⊢; omega) ps' ks' rest hrest).mpr
            ⟨vs, more, rfl, hmore, hcollects⟩

end call

end Classlet.Grammar
