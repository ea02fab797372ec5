import Classlet.Proofs.Evaluator.Code
import Classlet.Proofs.Memory.Exports

/-! # Where arguments go

A parameter takes the positional argument at its place, or else the keyword argument of its name
(`givenFor?`).  Arguments are put in order if each of them has a parameter (`Function.Places`), and
then every slot holds what is given for its parameter (`Function.arrange_checks`).  Otherwise that
is a `TypeError`.

What makes the two loops over keyword arguments and parameters easy to follow is that the
parameters of a function have different names: what a slot holds depends on its name alone
(`slotsBy`), and a keyword argument changes what one name stands for. -/

namespace Classlet

open Eval

/-! ### Checks -/

/-- A check succeeds with `a` if `P` holds, and fails with a `TypeError` otherwise. -/
def Checks {α : Type} (P : Prop) (r : Except Cause α) (a : α) : Prop :=
  (P ∧ r = .ok a) ∨ (¬ P ∧ ∃ c, r = .error c ∧ c.kind = .type)

theorem Checks.congr {α : Type} {P Q : Prop} {r : Except Cause α} {a : α} (h : Checks P r a)
    (hPQ : P ↔ Q) : Checks Q r a := by
  rwa [← propext hPQ]

/-! ### The names of parameters -/

namespace Function

/-- A function has been made from a declaration; it learns its class later. -/
inductive Made : Function → Prop
  | intro {e : Engine} {decl : FunctionDecl} {owner : Option String} {s s' : State}
      {r : FunctionRef} {f : Function} (ofClass : Option ClassRef) :
      e.makeFunction decl owner s = (.ok r, s') → s'.memory.function? r = some f →
      Made { f with owner := ofClass }

variable {f : Function}

theorem params_of_captureFunction {decl : FunctionDecl} {params : List ParamSpec}
    {returns : List TypeSpec} {s s' : State} {r : FunctionRef}
    (h : captureFunction decl params returns s = (.ok r, s'))
    (hf : s'.memory.function? r = some f) : f.params = params := by
  obtain ⟨⟨⟩, t, -, h⟩ := of_bind_ok h
  have hfunctions := congrArg (fun r => r.2.memory.functions) h
  have hr : (⟨t.memory.functions.size⟩ : FunctionRef) = r :=
    Outcome.ok.inj (congrArg Prod.fst h)
  dsimp only at hfunctions
  rw [Memory.function?, ← hfunctions, ← hr] at hf
  have hlast := hf.symm.trans Array.getElem?_push_size
  rw [Option.some.inj hlast]

/-- What a declaration is checked for when a function is made from it. -/
theorem Made.exists_params (h : f.Made) : ∃ (function : String) (params : List Param),
    checkParams function [] params = .ok () ∧
      f.params.map ParamSpec.name = params.map Param.name := by
  obtain @⟨e, decl, owner, s, s', r, f, ofClass, hmade, hf⟩ := h
  obtain ⟨name, params, returns, body, line⟩ := decl
  rw [Engine.makeFunction] at hmade
  obtain ⟨⟨⟩, s₁, hcheck, hmade⟩ := of_bind_ok hmade
  obtain ⟨ps, s₂, hps, hmade⟩ := of_bind_ok hmade
  obtain ⟨rs, s₃, -, hmade⟩ := of_bind_ok hmade
  obtain rfl : f.params = ps := params_of_captureFunction hmade hf
  refine ⟨name, params, ?_, names_resolveParams ⟨s₁, s₂, hps⟩⟩
  cases hresult : checkParams name [] params with
  | ok _ => rfl
  | error c =>
    rw [hresult] at hcheck
    cases hcheck

theorem Made.nodup (h : f.Made) : (f.params.map ParamSpec.name).Nodup := by
  obtain ⟨function, params, hcheck, hnames⟩ := h.exists_params
  rw [hnames]
  exact (nodup_of_checkParams_eq_ok hcheck).1

end Function

/-! ### What is given for a parameter -/

/-- The value that is given for a parameter: the positional argument at its place, or else the
keyword argument of its name. -/
def givenFor? (arguments : List Value) (keywords : KeywordValues) (i : Nat) (p : ParamSpec) :
    Option Value :=
  arguments[i]?.or (Bindings.get? keywords p.name)

/-- Every argument of a call has a parameter. -/
structure Function.Places (f : Function) (arguments : List Value) (keywords : KeywordValues) :
    Prop where
  /-- There are no more positional arguments than parameters that take one, unless a variadic
  parameter takes the rest. -/
  count : arguments.length ≤ f.fixed.length ∨ f.variadic?.isSome
  distinct : (keywords.map (·.1)).Nodup
  /-- Each keyword argument names a parameter that no positional argument is for. -/
  named : ∀ k ∈ keywords, ∃ i p, f.fixed[i]? = some p ∧ p.name = k.1 ∧ arguments.length ≤ i

/-! ### Slots by name -/

/-- Slots that hold what stands under the names of their parameters. -/
def slotsBy (params : List ParamSpec) (value? : String → Option Value) : List Slot :=
  params.map fun p => (p, value? p.name)

/-- What stands under a name, or else the keyword argument of the name. -/
def orKeyword (value? : String → Option Value) (keywords : KeywordValues) (name : String) :
    Option Value :=
  (value? name).or (Bindings.get? keywords name)

section filling
variable {function keyword : String} {v : Value} {value? : String → Option Value}

theorem slotsBy_congr {params : List ParamSpec} {other? : String → Option Value}
    (h : ∀ p ∈ params, value? p.name = other? p.name) :
    slotsBy params value? = slotsBy params other? :=
  List.map_congr_left fun p hp => by rw [h p hp]

theorem orKeyword_of_ne {name : String} (h : keyword ≠ name) :
    orKeyword value? [(keyword, v)] name = value? name := by
  rw [orKeyword, Bindings.get?, if_neg h, Bindings.get?_nil, Option.or_none]

theorem orKeyword_cons (more : KeywordValues) :
    orKeyword (orKeyword value? [(keyword, v)]) more = orKeyword value? ((keyword, v) :: more) := by
  funext name
  unfold orKeyword
  rw [Option.or_assoc, Bindings.get?, Bindings.get?, Bindings.get?]
  split <;> rfl

theorem orKeyword_eq_none {name : String} :
    orKeyword value? [(keyword, v)] name = none ↔ value? name = none ∧ keyword ≠ name := by
  unfold orKeyword Bindings.get?
  rw [Option.or_eq_none_iff]
  split <;> simp [*]

theorem orKeyword_self (h : value? keyword = none) :
    orKeyword value? [(keyword, v)] keyword = some v := by
  rw [orKeyword, h, Bindings.get?, if_pos rfl, Option.none_or]

/-- A keyword argument goes to the parameter of its name, if nothing stands there. -/
theorem fillKeyword_checks (function keyword : String) (v : Value)
    (value? : String → Option Value) : ∀ {params : List ParamSpec},
      (params.map ParamSpec.name).Nodup →
        Checks (keyword ∈ params.map ParamSpec.name ∧ value? keyword = none)
          (fillKeyword function keyword v (slotsBy params value?))
          (slotsBy params (orKeyword value? [(keyword, v)]))
  | [], _ => .inr ⟨fun h => List.not_mem_nil h.1, _, rfl, rfl⟩
  | p :: params, hnodup => by
      obtain ⟨hp, hmore⟩ := List.nodup_cons.mp hnodup
      have hcons : ∀ value? : String → Option Value, slotsBy (p :: params) value? =
          (p, value? p.name) :: slotsBy params value? := fun _ => rfl
      rw [hcons, hcons, fillKeyword.eq_def]
      dsimp only
      by_cases hname : p.name = keyword
      · subst hname
        rw [if_pos rfl]
        cases hv : value? p.name with
        | none =>
          have hothers : slotsBy params (orKeyword value? [(p.name, v)]) = slotsBy params value? :=
            slotsBy_congr fun q hq => orKeyword_of_ne fun he => hp (he ▸ List.mem_map_of_mem hq)
          rw [orKeyword_self hv, hothers]
          exact .inl ⟨⟨List.mem_cons_self, rfl⟩, rfl⟩
        | some w => exact .inr ⟨fun h => Option.some_ne_none w h.2, _, rfl, rfl⟩
      · rw [if_neg hname, orKeyword_of_ne (Ne.symm hname)]
        have hmem : keyword ∈ (p :: params).map ParamSpec.name ↔
            keyword ∈ params.map ParamSpec.name := by
          rw [List.map_cons, List.mem_cons]
          exact or_iff_right (Ne.symm hname)
        rw [hmem]
        rcases fillKeyword_checks function keyword v value? hmore with
          ⟨hplaced, hok⟩ | ⟨hnot, c, herror, hkind⟩
        · exact .inl ⟨hplaced, by rw [hok]; rfl⟩
        · exact .inr ⟨hnot, c, by rw [herror]; rfl, hkind⟩

/-- So do all keyword arguments, if their names are different. -/
theorem fillKeywords_checks (function : String) {params : List ParamSpec}
    (hnodup : (params.map ParamSpec.name).Nodup) :
    ∀ (keywords : KeywordValues) (value? : String → Option Value),
      Checks ((keywords.map (·.1)).Nodup ∧
          ∀ k ∈ keywords, k.1 ∈ params.map ParamSpec.name ∧ value? k.1 = none)
        (fillKeywords function keywords (slotsBy params value?))
        (slotsBy params (orKeyword value? keywords))
  | [], value? => by
      refine .inl ⟨⟨List.nodup_nil, fun _ hk => nomatch hk⟩, congrArg Except.ok ?_⟩
      exact slotsBy_congr fun p _ => (Option.or_none).symm
  | (keyword, v) :: more, value? => by
      rw [fillKeywords]
      rcases fillKeyword_checks function keyword v value? hnodup with
        ⟨hplaced, hok⟩ | ⟨hnot, c, herror, hkind⟩
      · have hrest := fillKeywords_checks function hnodup more (orKeyword value? [(keyword, v)])
        rw [orKeyword_cons] at hrest
        rw [hok]
        refine hrest.congr ?_
        rw [List.map_cons, List.nodup_cons, List.forall_mem_cons]
        simp only [orKeyword_eq_none]
        constructor
        · rintro ⟨hdistinct, hnamed⟩
          refine ⟨⟨fun hm => ?_, hdistinct⟩, hplaced, fun k hk => ?_⟩
          · obtain ⟨k, hk, he⟩ := List.mem_map.mp hm
            exact (hnamed k hk).2.2 he.symm
          · exact ⟨(hnamed k hk).1, (hnamed k hk).2.1⟩
        · rintro ⟨⟨hkeyword, hdistinct⟩, -, hnamed⟩
          refine ⟨hdistinct, fun k hk => ⟨(hnamed k hk).1, (hnamed k hk).2, ?_⟩⟩
          rintro rfl
          exact hkeyword (List.mem_map_of_mem hk)
      · rw [herror]
        exact .inr ⟨fun h => hnot (h.2 _ List.mem_cons_self), c, rfl, hkind⟩

end filling

/-! ### Arguments in order -/

/-- The positional argument for the parameter of a name. -/
def positional? (params : List ParamSpec) (arguments : List Value) : String → Option Value :=
  Bindings.get? ((params.map ParamSpec.name).zip arguments)

theorem positional?_eq : ∀ {params : List ParamSpec} {arguments : List Value} {i : Nat}
    {p : ParamSpec}, (params.map ParamSpec.name).Nodup → params[i]? = some p →
      positional? params arguments p.name = arguments[i]?
  | _ :: _, [], _, _, _, _ => rfl
  | q :: params, v :: arguments, 0, p, _, hp => by
      obtain rfl : q = p := Option.some.inj hp
      exact if_pos rfl
  | q :: params, v :: arguments, i + 1, p, hnodup, hp => by
      obtain ⟨hq, hmore⟩ := List.nodup_cons.mp hnodup
      have hp : params[i]? = some p := hp
      have hne : q.name ≠ p.name := fun he =>
        hq (he ▸ List.mem_map_of_mem (List.mem_of_getElem? hp))
      exact (if_neg hne).trans (positional?_eq hmore hp)

theorem getElem?_fillPositional : ∀ (params : List ParamSpec) (arguments : List Value) (i : Nat),
    (fillPositional params arguments)[i]? = params[i]?.map fun p => (p, arguments[i]?)
  | [], _, _ => rfl
  | _ :: _, [], 0 => rfl
  | _ :: params, [], i + 1 => getElem?_fillPositional params [] i
  | _ :: _, _ :: _, 0 => rfl
  | _ :: params, _ :: arguments, i + 1 => getElem?_fillPositional params arguments i

theorem getElem?_slotsBy (params : List ParamSpec) (value? : String → Option Value) (i : Nat) :
    (slotsBy params value?)[i]? = params[i]?.map fun p => (p, value? p.name) :=
  List.getElem?_map

theorem fillPositional_eq {params : List ParamSpec} (hnodup : (params.map ParamSpec.name).Nodup)
    (arguments : List Value) :
    fillPositional params arguments = slotsBy params (positional? params arguments) := by
  refine List.ext_getElem? fun i => ?_
  rw [getElem?_fillPositional, getElem?_slotsBy]
  refine Option.map_congr fun p hp => ?_
  rw [positional?_eq hnodup hp]

namespace Function

variable {f : Function} {arguments : List Value} {keywords : KeywordValues}

/-- What the parameters that take one argument are given. -/
def slots (f : Function) (arguments : List Value) (keywords : KeywordValues) : List Slot :=
  f.fixed.mapIdx fun i p => (p, givenFor? arguments keywords i p)

theorem getElem?_slots (i : Nat) : (f.slots arguments keywords)[i]? =
    f.fixed[i]?.map fun p => (p, givenFor? arguments keywords i p) :=
  List.getElem?_mapIdx

theorem forall_mem_slots {P : Slot → Prop} : (∀ slot ∈ f.slots arguments keywords, P slot) ↔
    ∀ i p, f.fixed[i]? = some p → P (p, givenFor? arguments keywords i p) := by
  constructor
  · intro h i p hp
    exact h _ (List.mem_of_getElem? (i := i) (by rw [getElem?_slots, hp]; rfl))
  · intro h slot hslot
    obtain ⟨i, hi⟩ := List.mem_iff_getElem?.mp hslot
    rw [getElem?_slots] at hi
    obtain ⟨p, hp, rfl⟩ := Option.map_eq_some_iff.mp hi
    exact h i p hp

theorem names_slots (f : Function) (arguments : List Value) (keywords : KeywordValues) :
    (f.slots arguments keywords).map (·.1.name) = f.fixed.map ParamSpec.name := by
  refine List.ext_getElem? fun i => ?_
  rw [List.getElem?_map, List.getElem?_map, getElem?_slots, Option.map_map]
  rfl

theorem slots_eq (hnodup : (f.fixed.map ParamSpec.name).Nodup) :
    slotsBy f.fixed (orKeyword (positional? f.fixed arguments) keywords) =
      f.slots arguments keywords := by
  refine List.ext_getElem? fun i => ?_
  rw [getElem?_slots, getElem?_slotsBy]
  refine Option.map_congr fun p hp => ?_
  rw [orKeyword, positional?_eq hnodup hp, givenFor?]

theorem named_iff (hnodup : (f.fixed.map ParamSpec.name).Nodup) (name : String) :
    (name ∈ f.fixed.map ParamSpec.name ∧ positional? f.fixed arguments name = none) ↔
      ∃ i p, f.fixed[i]? = some p ∧ p.name = name ∧ arguments.length ≤ i := by
  constructor
  · rintro ⟨hmem, hnone⟩
    obtain ⟨p, hp, rfl⟩ := List.mem_map.mp hmem
    obtain ⟨i, hi⟩ := List.mem_iff_getElem?.mp hp
    rw [positional?_eq hnodup hi, List.getElem?_eq_none_iff] at hnone
    exact ⟨i, p, hi, rfl, hnone⟩
  · rintro ⟨i, p, hi, rfl, hle⟩
    refine ⟨List.mem_map_of_mem (List.mem_of_getElem? hi), ?_⟩
    rw [positional?_eq hnodup hi]
    exact List.getElem?_eq_none_iff.mpr hle

/-- **Arguments are put in order if each of them has a parameter**, and the slots then hold what is
given for their parameters. -/
theorem arrange_checks (hnodup : (f.fixed.map ParamSpec.name).Nodup) (arguments : List Value)
    (keywords : KeywordValues) :
    Checks (f.Places arguments keywords) (f.arrange arguments keywords)
      { slots := f.slots arguments keywords
        rest := f.variadic?.map fun p => (p, arguments.drop f.fixed.length) } := by
  have hmany : (!(arguments.drop f.fixed.length).isEmpty && f.variadic?.isNone) = true ↔
      ¬ (arguments.length ≤ f.fixed.length ∨ f.variadic?.isSome) := by
    simp [List.drop_eq_nil_iff, Option.isSome_iff_ne_none]
  unfold arrange
  dsimp only
  split
  · rename_i htoo
    exact .inr ⟨fun h => hmany.mp htoo h.count, _, rfl, rfl⟩
  · rename_i hfew
    have hcount : arguments.length ≤ f.fixed.length ∨ f.variadic?.isSome :=
      not_not.mp fun h => hfew (hmany.mpr h)
    have hfill := fillKeywords_checks f.name hnodup keywords
      (positional? f.fixed arguments)
    rw [← fillPositional_eq hnodup, slots_eq hnodup] at hfill
    simp only [named_iff hnodup] at hfill
    rcases hfill with ⟨⟨hdistinct, hnamed⟩, hok⟩ | ⟨hnot, c, herror, hkind⟩
    · exact .inl ⟨⟨hcount, hdistinct, hnamed⟩, by rw [hok]; rfl⟩
    · exact .inr ⟨fun h => hnot ⟨h.distinct, h.named⟩, c, by rw [herror]; rfl, hkind⟩

end Function

end Classlet
