import Mathlib
import Classlet.Proofs.Termination.Imports

/-! # Calm programs end

Before anything has run, memory holds the built-in classes, and the only scope is that of the global
names.  So the initial state is tame, and a calm program ends (`Program.evaluation_ends`). -/

namespace Classlet

open Eval Fragment

variable {P : Program}

/-! ### The initial state -/

theorem Memory.tame_initial : Memory.initial.Tame P := by
  have hclasses : ∀ i < Memory.initial.classes.size, (Memory.initial.classes[i]?).all (fun d =>
      d.attributes.isEmpty && d.base.all fun b => b.index < i) = true := by decide
  refine
    { builtins := le_rfl
      elements := fun _ _ h => by simp [Memory.initial] at h
      fields := fun _ _ h => by simp [Memory.initial] at h
      classInfos := fun i d h => ?_
      methods := fun _ _ h => by simp [Memory.initial] at h
      functions := fun _ _ h => by simp [Memory.initial] at h
      modules := fun _ _ h => by simp [Memory.initial] at h }
  have hd := hclasses i (Array.getElem?_eq_some_iff.mp h).1
  rw [h, Option.all_some, Bool.and_eq_true, List.isEmpty_iff] at hd
  obtain ⟨hnone, hbase⟩ := hd
  refine ⟨?_, ?_, fun b hb => ?_⟩
  · rw [hnone]
    exact fun _ hp => by cases hp
  · rw [hnone]
    exact fun _ hp => by cases hp
  · rw [hb] at hbase
    simpa using hbase

/-- Names are bound in the only scope of a context, to values that are not copied. -/
theorem Store.defineAll_spec {c : ContextId} {base : ScopeId} : ∀ (names : List (String × Value))
    {t : Store}, (∀ p ∈ names, p.2.isStruct = false) → (t.scopes.context c).scopes = [base] →
      base.index < t.scopes.frames.size →
        (t.defineAll c names).memory = t.memory ∧
          ((t.defineAll c names).scopes.context c).scopes = [base] ∧
            ∀ r, ∀ p ∈ ((t.defineAll c names).scopes.frame r).values,
              p ∈ (t.scopes.frame r).values ∨ (r = base ∧ p ∈ names)
  | [], _, _, hstack, _ => ⟨rfl, hstack, fun _ _ hp => .inl hp⟩
  | (name, v) :: more, t, hnames, hstack, hlt => by
      obtain ⟨hv, hmore⟩ := List.forall_mem_cons.mp hnames
      unfold Store.defineAll Store.define Store.newPlace
      by_cases hreserved : isReserved name = true
      · rw [if_pos hreserved]
        obtain ⟨hmemory, hscopes, hvalues⟩ := defineAll_spec more hmore hstack hlt
        exact ⟨hmemory, hscopes, fun r p hp =>
          (hvalues r p hp).imp_right fun h => ⟨h.1, List.mem_cons_of_mem _ h.2⟩⟩
      · have hbound : t.bindCopy base name v =
            { memory := t.memory, scopes := t.scopes.bind base name v } := by
          unfold Store.bindCopy Memory.copyForBinding
          rw [hv]
          rfl
        rw [if_neg hreserved, Arena.innermost, hstack]
        simp only [Except.map]
        rw [hbound]
        obtain ⟨hmemory, hscopes, hvalues⟩ := defineAll_spec more
          (t := { memory := t.memory, scopes := t.scopes.bind base name v }) hmore hstack
          (by simpa [Arena.bind, Arena.modifyFrame] using hlt)
        refine ⟨hmemory, hscopes, fun r p hp => ?_⟩
        rcases hvalues r p hp with hold | ⟨hr, hp⟩
        · rw [Arena.values_bind hlt] at hold
          split at hold
          · rename_i hr
            rcases Bindings.mem_insert hold with rfl | hold
            · exact .inr ⟨hr, List.mem_cons_self⟩
            · exact .inl (hr ▸ hold)
          · exact .inl hold
        · exact .inr ⟨hr, List.mem_cons_of_mem _ hp⟩

/-- All global names but that of `append` are bound to values that fit. -/
theorem globals_fit : ∀ p ∈ globals .initial,
    p.2.FitsIn .initial ∨ p.1 = Builtin.append.name := by
  intro p hp
  rcases List.mem_append.mp hp with hp | hp
  · obtain ⟨c, hc, rfl⟩ := List.mem_map.mp hp
    obtain ⟨i, hi, rfl⟩ := List.mem_map.mp (List.mem_filter.mp hc).1
    exact .inl (List.mem_range.mp hi)
  · obtain ⟨f, -, rfl⟩ := List.mem_map.mp hp
    by_cases hf : f = .append
    · subst hf
      exact .inr rfl
    · exact .inl hf

theorem State.tame_initial : State.initial.Tame P := by
  obtain ⟨hexact, base, hadds⟩ :=
    Arena.openContext_spec (α := Value) .empty none fun p hp => by cases hp
  have hempty : ∀ r, ((({} : Arena Value).openContext none).2.frame r).values = [] := by
    intro r
    by_cases hr : r = base
    · exact hadds.values_new r (List.mem_singleton.mpr hr)
    · exact hadds.values_old r (by simpa using hr)
  have hlt := hexact.scope_lt _ base (by
    rw [hadds.context_new.scopes]
    exact List.mem_singleton_self base)
  obtain ⟨hmemory, hscopes, hvalues⟩ := Store.defineAll_spec (globals .initial)
    (t := { memory := .initial, scopes := (({} : Arena Value).openContext none).2 }) (by decide)
    hadds.context_new.scopes hlt
  have hstate : State.initial.memory = .initial := hmemory
  refine ⟨sound_initial, ?_, fun r _ p hp => ?_, fun r hr => by cases hr⟩
  · rw [hstate]
    exact Memory.tame_initial
  · rcases hvalues r p hp with hp | ⟨rfl, hp⟩
    · rw [hempty r] at hp
      cases hp
    · rw [hstate]
      refine (globals_fit p hp).imp_right fun hname => ⟨?_, hname⟩
      exact congrArg List.getLast? hscopes

/-! ### The evaluation of a program -/

/-- Before anything has run, with a schedule for what is let go of. -/
def State.initialWith (schedule : List (List FunctionRef)) : State :=
  { State.initial with schedule := schedule }

/-- **A calm program ends, in a module or in an error**, whatever recursion its functions, its
classes and its imports set up, unless an instance of its claims more elements than there can be
room for.  So it is with every schedule that does not let go of a function before a call of it. -/
theorem calm_program_ends (htexts : ∀ entry ∈ P.texts.entries, P.Accepts entry.2) {source : String}
    (hsource : P.Accepts source) (schedule : List (List FunctionRef)) :
    ∃ (answer : Outcome ModuleRef) (s : State) (fuel : Nat),
      (∀ m, fuel ≤ m →
        evaluateSource (P.engine m) P.main source none (.initialWith schedule) = (answer, s)) ∧
        ((∃ r, answer = .ok r) ∨ (∃ error, answer = .raised error) ∨
          answer = .stopped .capacityOverflow ∨
            (answer = .stopped .stale ∧ schedule.flatten ≠ [])) := by
  have htame : (State.initialWith schedule).Tame P :=
    { State.tame_initial with sound := { sound_initial with } }
  obtain ⟨⟨answer, s⟩, fuel, hrun, hends⟩ :=
    Halts.evaluateSource htame (.inl rfl) hsource fun u _ => P.allCodeHalts htexts (P.level u)
  refine ⟨answer, s, fuel, hrun, ?_⟩
  cases answer with
  | ok r => exact .inl ⟨r, rfl⟩
  | raised error => exact .inr (.inl ⟨error, rfl⟩)
  | stopped why =>
      rcases hends.halted why rfl with rfl | ⟨rfl, q, hq⟩
      · exact .inr (.inr (.inl rfl))
      · refine .inr (.inr (.inr ⟨rfl, fun hnone => hq ⟨List.not_mem_nil, fun now hnow => ?_⟩⟩))
        rw [List.flatten_eq_nil_iff.mp hnone now hnow]
        exact List.not_mem_nil

/-- A library with a function that calls itself without end. -/
def endlessLibrary : Program where
  settings := {}
  texts := { entries := [(⟨"stdlib/m.crv"⟩, "fun f(x) \x7b return f(x); \x7d")] }
  main := ⟨"main"⟩

/-- The program that calls the function of the library ends. -/
theorem calm_program_ends_endless_recursion :
    (∀ entry ∈ endlessLibrary.texts.entries, endlessLibrary.Accepts entry.2) ∧
      endlessLibrary.Accepts "import m; m.f(m);" ∧
      ∃ (answer : Outcome ModuleRef) (s : State) (fuel : Nat),
        (∀ k, fuel ≤ k → evaluateSource (endlessLibrary.engine k) ⟨"main"⟩ "import m; m.f(m);" none
          (.initialWith []) = (answer, s)) ∧
          ((∃ r, answer = .ok r) ∨ (∃ error, answer = .raised error) ∨
            answer = .stopped .capacityOverflow ∨
              (answer = .stopped .stale ∧ List.flatten [] ≠ ([] : List FunctionRef))) := by
  have hlibrary : parse "fun f(x) \x7b return f(x); \x7d" =
      .ok [.mk 1 (.function (.mk "f" [.mk "x" none false] []
        [.mk 1 (.returnValues [.call (.var "f") [.var "x"] []])] 1))] := by cbv
  have hmain : parse "import m; m.f(m);" = .ok [.mk 1 (.importModule (.standard ["m"]) none),
      .mk 1 (.expression (.call (.attr (.var "m") "f") [.var "m"] []))] := by cbv
  have hlands : endlessLibrary.Lands (.standard ["m"]) := by
    intro q _
    have hfixed : Location.canonical (Location.resolve (.standard ["m"]) none ⟨"stdlib"⟩) =
        Location.resolve (.standard ["m"]) none ⟨"stdlib"⟩ := by decide +kernel
    exact hfixed
  have hnames : "f" ≠ Builtin.append.name ∧ "x" ≠ Builtin.append.name ∧
      "m" ≠ Builtin.append.name := by decide
  have htexts : ∀ entry ∈ endlessLibrary.texts.entries, endlessLibrary.Accepts entry.2 := by
    intro entry hentry code hcode
    rw [List.mem_singleton.mp hentry] at hcode
    cases hlibrary.symm.trans hcode
    simp [everywhere_iff, Fragment.parts, ofBody, Statement.kind, StatementKind.parts,
      FunctionDecl.parts, FunctionDecl.params, FunctionDecl.returns, FunctionDecl.body,
      Param.typeExpr, List.filterMap_cons, Expr.parts, Calm, Program.ImportsLand, hnames]
  have hsource : endlessLibrary.Accepts "import m; m.f(m);" := by
    intro code hcode
    cases hmain.symm.trans hcode
    simp [everywhere_iff, Fragment.parts, ofBody, Statement.kind, StatementKind.parts, Expr.parts,
      Calm, Program.ImportsLand, hlands, hnames]
  exact ⟨htexts, hsource, calm_program_ends htexts hsource []⟩

/-- A program without anything to import. -/
def aloneProgram : Program where
  settings := {}
  texts := { entries := [] }
  main := ⟨"main"⟩

/-- An instance that claims `2 ^ 62` elements, taken apart. -/
def vastSequence : String :=
  "class A \x7b operator len(self) \x7b return int(\"4611686018427387904\"); \x7d\n" ++
    "operator [](self, i) \x7b return i; \x7d \x7d a, b = A();"

/-- Why an evaluation was stopped. -/
def Outcome.stop? {α : Type} : Outcome α → Option Stop
  | .stopped why => some why
  | _ => none

/-- There is no room for the elements, so that the program ends neither in a module nor in an
error. -/
theorem vast_sequence_has_no_room :
    (∀ entry ∈ aloneProgram.texts.entries, aloneProgram.Accepts entry.2) ∧
      aloneProgram.Accepts vastSequence ∧
      (evaluateSource (aloneProgram.engine 3) aloneProgram.main vastSequence none
          .initial).1.stop? =
        some .capacityOverflow := by
  have hparse : parse vastSequence = .ok [.mk 1 (.classDecl "A" none
      [.operator (.mk "len" [.mk "self" none false] [] [.mk 1 (.returnValues
          [.call (.var "int") [.literal (.str "4611686018427387904")] []])] 1),
        .operator (.mk "[]" [.mk "self" none false, .mk "i" none false] []
          [.mk 2 (.returnValues [.var "i"])] 2)] false),
      .mk 2 (.assign [.var "a", .var "b"] [.call (.var "A") [] []])] := by cbv
  have hnames : "A" ≠ Builtin.append.name ∧ "i" ≠ Builtin.append.name ∧
      "a" ≠ Builtin.append.name ∧ "b" ≠ Builtin.append.name ∧ "int" ≠ Builtin.append.name := by
    decide
  have hstop : (evaluateSource (aloneProgram.engine 3) aloneProgram.main vastSequence none
      .initial).1.stop? = some .capacityOverflow := by
    rw [evaluateSource, hparse]
    decide +kernel
  refine ⟨List.forall_mem_nil _, fun code hcode => ?_, hstop⟩
  cases hparse.symm.trans hcode
  simp [everywhere_iff, Fragment.parts, ofBody, Statement.kind, StatementKind.parts,
    ClassMember.parts, FunctionDecl.parts, FunctionDecl.params, FunctionDecl.returns,
    FunctionDecl.body, Param.typeExpr, List.filterMap_cons, Expr.parts, Calm, Expr.isIndex,
    Program.ImportsLand, hnames]

end Classlet
