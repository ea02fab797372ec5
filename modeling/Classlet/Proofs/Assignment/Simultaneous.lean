import Classlet.Proofs.Assignment.Failure

/-! # Simultaneous assignments

An assignment to several variables is simultaneous: all values are there before the first variable
is bound (`offered`), and binding one variable changes neither the others nor any object that was
there.  So every target is read as what its value was before, or as a copy of it, and nothing else
is bound anew (`Reached.simultaneous_assignment`).  Where the number of values is not the number of
targets, nothing is bound.

Evaluation can run user code, but that code binds variables of its own only (`Isolated`).  The
bindings are one induction on the targets: a target that has been bound keeps its binding since the
other targets have other names. -/

namespace Classlet

open Eval

variable {e : Engine} {s t : State} {names : List String} {vs : List Value} {name : String}
  {v : Value}

/-! ### The values -/

/-- The values that an assignment to several targets has to give away: those of its expressions, or
the elements of the value of a single one. -/
def offered (e : Engine) : List Expr → Eval (List Value)
  | [x] => do
    let v ← e.evalExpr x
    elementsOf e v
  | xs => evalAll e xs

theorem isolated_offered (he : e.Satisfies Isolated) : ∀ xs : List Expr, Isolated (offered e xs)
  | [] => isolated_closed.evalAll he []
  | [x] => (isolated_closed.evalExpr he x).bind fun v => isolated_closed.elementsOf he v
  | x :: y :: xs => isolated_closed.evalAll he (x :: y :: xs)

theorem evalAll_bind {β : Type} (x y : Expr) (xs : List Expr) (f : List Value → Eval β) :
    (evalAll e (x :: y :: xs) >>= f) = e.evalExpr x >>= fun v => e.evalExpr y >>= fun w =>
      evalAll e xs >>= fun vs => f (v :: w :: vs) := by
  rw [evalAll, evalAll]
  simp only [← bind_assoc]
  rfl

/-- Several targets take what is offered, if the numbers are the same. -/
theorem evalAll_spread {need : Nat} (hneed : 2 ≤ need) : ∀ xs : List Expr,
    (evalAll e xs >>= spread e need) =
      offered e xs >>= fun vs => ofExcept (checkUnpack need vs.length) >>= fun _ => pure vs := by
  obtain ⟨k, rfl⟩ : ∃ k, need = k + 2 := ⟨need - 2, by omega⟩
  intro xs
  match xs with
  | [] => rfl
  | [x] =>
    rw [offered, evalAll, evalAll]
    simp only [← bind_assoc]
    rfl
  | x :: y :: xs =>
    rw [offered, evalAll_bind, evalAll_bind]
    · rfl
    · nofun

/-! ### Variables by name -/

/-- The value of a variable in a scope. -/
def State.value? (s : State) (r : ScopeId) (name : String) : Option Value :=
  (s.scopes.frame r).values.get? name

/-- The scope in which the running code binds a variable by an assignment. -/
def State.home? (s : State) (name : String) : Option ScopeId :=
  s.scopes.home? s.activation.context name

/-- A name is looked up in the same way where the same scopes have it, with the same values. -/
theorem Arena.get?_congr {a b : Arena Value} (hcontexts : b.contexts = a.contexts)
    (hvalues : ∀ r, (b.frame r).values.get? name = (a.frame r).values.get? name) (c : ContextId) :
    b.get? c name = a.get? c name := by
  have hcontext : ∀ c, b.context c = a.context c := fun c => by
    rw [Arena.context, Arena.context, hcontexts]
  have hfrom : ∀ (fuel : Nat) (c : ContextId), b.getFrom? name fuel c = a.getFrom? name fuel c := by
    intro fuel
    induction fuel with
    | zero => exact fun _ => rfl
    | succ fuel ih =>
      intro c
      rw [Arena.getFrom?, Arena.getFrom?, hcontext, funext ih]
      simp only [hvalues]
  rw [Arena.get?, Arena.get?, hcontexts, hfrom]

theorem Arena.home?_congr {a b : Arena Value} (hcontexts : b.contexts = a.contexts)
    (hvalues : ∀ r, (b.frame r).values.get? name = (a.frame r).values.get? name) (c : ContextId) :
    b.home? c name = a.home? c name := by
  have hcontext : b.context c = a.context c := by
    rw [Arena.context, Arena.context, hcontexts]
  unfold Arena.home? Arena.binder? Bindings.has
  simp only [hcontext, hvalues]

/-! ### The bindings -/

/-- The variables in `names` have been bound to values of `s`, and nothing else has changed. -/
structure Assigned (s : State) (names : List String) (vs : List Value) (t : State) : Prop where
  /-- Each target is read as what has been bound for its value. -/
  targets : List.Forall₂ (fun name v => ∃ w, s.memory.Copied v t.memory w ∧
    ∀ e : Engine, e.evalExpr (.var name) t = (.ok w, t)) names vs
  /-- All other bindings are as they were. -/
  others : ∀ r name, (name ∈ names → s.home? name ≠ some r) → t.value? r name = s.value? r name
  contexts : t.scopes.contexts = s.scopes.contexts
  freeContexts : t.scopes.freeContexts = s.scopes.freeContexts
  /-- Copies have been added to memory. -/
  adds : s.memory.Adds t.memory
  alters : s.memory.Alters t.memory
  lists : t.memory.lists = s.memory.lists
  /-- Nothing else has changed. -/
  rest : t = { s with toStore := t.toStore }

namespace Assigned

theorem activation (h : Assigned s names vs t) : t.activation = s.activation := by rw [h.rest]

theorem nil (s : State) : Assigned s [] [] s where
  targets := .nil
  others _ _ _ := rfl
  contexts := rfl
  freeContexts := rfl
  adds := .refl _
  alters := .refl _
  lists := rfl
  rest := rfl

/-- Binding a variable changes one binding. -/
theorem one {r : ScopeId} (hplace : s.toStore.place s.activation.context name v = .ok r)
    (hlt : r.index < s.scopes.frames.size) :
    Assigned s [name] [v] { s with toStore := s.toStore.bindCopy r name v } where
  targets := .cons ⟨_, s.memory.copied_copyForBinding v,
    fun _ => evalExpr_var _ (Store.lookup_place hplace hlt)⟩ .nil
  others f other hother := by
    have hhome : s.home? name = some r := Store.home_of_place hplace
    unfold State.value? Store.bindCopy
    dsimp only
    rw [Arena.values_bind hlt]
    split
    · rename_i hf
      subst hf
      refine Bindings.get?_insert_of_ne _ _ ?_
      rintro rfl
      exact hother List.mem_cons_self hhome
    · rfl
  contexts := rfl
  freeContexts := rfl
  adds := s.memory.adds_copyForBinding v
  alters := s.memory.alters_copyForBinding v
  lists := s.memory.lists_copyForBinding v
  rest := rfl

/-- A target that has been bound keeps its binding, as the other targets have other names. -/
theorem cons {s₁ : State} (hname : name ∉ names) (h₁ : Assigned s [name] [v] s₁)
    (h₂ : Assigned s₁ names vs t) : Assigned s (name :: names) (v :: vs) t where
  targets := by
    obtain ⟨⟨w, hcopied, hread⟩, -⟩ := List.forall₂_cons.mp h₁.targets
    refine .cons ⟨w, hcopied.mono (.refl _) h₂.adds, fun e => evalExpr_var e ?_⟩
      (h₂.targets.imp fun _ _ ⟨w, hw, hread⟩ => ⟨w, hw.mono h₁.adds (.refl _), hread⟩)
    obtain ⟨hlookup, -⟩ := lookup_of_evalExpr (hread e)
    have hvalues : ∀ r, t.value? r name = s₁.value? r name :=
      fun r => h₂.others r name fun hmem => absurd hmem hname
    have hget := Arena.get?_congr h₂.contexts hvalues s₁.activation.context
    rw [Store.lookup] at hlookup ⊢
    rwa [h₂.activation, hget]
  others r other hother := by
    have hrest : other ∈ names → s₁.home? other ≠ some r := by
      intro hmem
      have hvalues : ∀ f, s₁.value? f other = s.value? f other := by
        refine fun f => h₁.others f other fun hsame => ?_
        rw [List.mem_singleton.mp hsame] at hmem
        exact absurd hmem hname
      have hhome := Arena.home?_congr h₁.contexts hvalues s.activation.context
      rw [State.home?, h₁.activation, hhome]
      exact hother (List.mem_cons_of_mem _ hmem)
    rw [h₂.others r other hrest]
    refine h₁.others r other fun hmem => hother ?_
    rw [List.mem_singleton.mp hmem]
    exact List.mem_cons_self
  contexts := h₂.contexts.trans h₁.contexts
  freeContexts := h₂.freeContexts.trans h₁.freeContexts
  adds := h₁.adds.trans h₂.adds
  alters := h₁.alters.trans h₂.alters
  lists := h₂.lists.trans h₁.lists
  rest := by
    have hrest := h₂.rest
    rw [h₁.rest] at hrest
    exact hrest

theorem of_assignAll : ∀ {names : List String} {vs : List Value} {s : State}, s.Sound →
    names.Nodup → vs.length = names.length →
      assignAll e (names.map .var) vs s = (.ok (), t) → Assigned s names vs t
  | [], [], _, _, _, _, h => by
      cases h
      exact .nil _
  | name :: names, v :: vs, s, hs, hnodup, hlength, h => by
      obtain ⟨hname, hmore⟩ := List.nodup_cons.mp hnodup
      obtain ⟨⟨⟩, s₁, hfirst, hrest⟩ := of_bind_ok h
      have hassign : assign s.activation.context name v s = (.ok (), s₁) := hfirst
      obtain ⟨r, hplace, hlt, hone⟩ := assign_ok hs hs.here.1 hassign
      have hsound := (Settles.assign s.activation.context name v hs hs.here.1).sound
      rw [hassign] at hsound
      have hbound : Assigned s [name] [v] s₁ := hone ▸ .one hplace hlt
      exact hbound.cons hname (of_assignAll hsound hmore (Nat.succ.inj hlength) hrest)

end Assigned

/-! ### The statement -/

theorem assignment_variables (hnames : 2 ≤ names.length) (xs : List Expr) :
    assignment e (names.map .var) xs = offered e xs >>= fun vs =>
      ofExcept (checkUnpack names.length vs.length) >>= fun _ =>
        assignAll e (names.map .var) vs := by
  have hneed : 2 ≤ (names.map Expr.var).length := by rwa [List.length_map]
  unfold assignment
  rw [Eval.bind_assoc, evalAll_spread hneed, List.length_map, ← Eval.bind_assoc]
  simp only [← Eval.bind_assoc]
  rfl

section statement
variable {settings : Settings} {loader : Loader}

/-- **Multiple assignment is simultaneous.**  If an assignment to several different variables
succeeds, each of them is read as what was bound for its value, and its value is what its
expression, or its element of a single sequence, came to before the first one was bound.  Nothing
else is bound anew, neither by the assignment nor by what is run to evaluate the values.  If the
values are evaluated and their number is another one, the assignment raises a `ValueError` and binds
nothing. -/
theorem Reached.simultaneous_assignment (h : Reached settings loader s)
    (hnames : 2 ≤ names.length) (hnodup : names.Nodup) (xs : List Expr) (fuel : Nat)
    (line : UInt32) :
    let e := engine settings loader fuel
    let code : Statement := .mk line (.assign (names.map .var) xs)
    (∀ completion t, e.execStatement code s = (.ok completion, t) → ∃ vs s',
      offered e xs s = (.ok vs, s') ∧ Undisturbed s s' ∧ vs.length = names.length ∧
        Assigned s' names vs t) ∧
    (∀ vs s', offered e xs s = (.ok vs, s') → vs.length ≠ names.length → ∃ error c,
      e.execStatement code s = (.raised error, s') ∧ error.raised = .cause c ∧ c.kind = .value ∧
        Undisturbed s s') := by
  intro e code
  have hoffered := isolated_offered (rules.engine settings loader fuel) xs s h.sound
  have hrun : e.execStatement code s =
      recording code (completing (assignment e (names.map .var) xs)) s := by
    rw [Engine.execStatement, execKind]
  constructor
  · intro completion t hok
    rw [hrun, assignment_variables hnames] at hok
    obtain ⟨⟨⟩, t', hassign, hdone⟩ := of_bind_ok (of_recording_ok hok)
    cases hdone
    obtain ⟨vs, s', hvs, hassign⟩ := of_bind_ok hassign
    rw [hvs] at hoffered
    obtain ⟨⟨⟩, s'', hcheck, hassign⟩ := of_bind_ok hassign
    unfold checkUnpack at hcheck
    split at hcheck <;> cases hcheck
    rename_i hlength
    exact ⟨vs, s', hvs, hoffered.disturbs_nothing, hlength.symm,
      .of_assignAll hoffered.sound hnodup hlength.symm hassign⟩
  · intro vs s' hvs hlength
    have hfail : completing (assignment e (names.map .var) xs) s =
        (.raised (.ofCause (.unpackCount names.length vs.length)), s') := by
      rw [assignment_variables hnames, completing, bind_apply, bind_apply, hvs]
      dsimp only
      rw [checkUnpack, if_neg (Ne.symm hlength)]
      rfl
    have hrecorded : recording code (completing (assignment e (names.map .var) xs)) s =
        (.raised ((RuntimeError.ofCause (.unpackCount names.length vs.length)).record s'.depth
          (s'.traceFrame code)), s') := by
      rw [recording, hfail]
    rw [hvs] at hoffered
    exact ⟨_, _, hrun.trans hrecorded, RuntimeError.raised_record _ _ _, rfl,
      hoffered.disturbs_nothing⟩

end statement

/-- An assignment to two variables. -/
def assignBoth (xs : List Expr) : Statement := .mk 1 (.assign (["a", "b"].map .var) xs)

def twoVariables (e : Engine) : State :=
  ((Task.statement (assignBoth [.literal (.int 1), .literal (.int 2)])).run e .initial).2

theorem reached_twoVariables (settings : Settings) (loader : Loader) (fuel : Nat) :
    Reached settings loader (twoVariables (engine settings loader fuel)) :=
  .ran (.statement _) fuel .initial

theorem evalExpr_of_int? {n : Int64} (h : (e.evalExpr (.var name) s).1.int? = some n) :
    e.evalExpr (.var name) s = (.ok (.int n), s) :=
  evalExpr_var _ (lookup_of_evalExpr (Outcome.eq_of_int? h)).1

/-- Two variables change places, and three values are too many for them. -/
theorem simultaneous_assignment_swap :
    let e := engine {} (fun _ => .unknown) 1
    let s := twoVariables e
    let swap := assignBoth [.var "b", .var "a"]
    let literals : List Expr := [.literal (.int 1), .literal (.int 2), .literal (.int 3)]
    (∃ completion t vs s', e.execStatement swap s = (.ok completion, t) ∧ Undisturbed s s' ∧
      Assigned s' ["a", "b"] vs t ∧ e.evalExpr (.var "a") t = (.ok (.int 2), t) ∧
        e.evalExpr (.var "b") t = (.ok (.int 1), t)) ∧
    ∃ error c, e.execStatement (assignBoth literals) s = (.raised error, s) ∧
      error.raised = .cause c ∧ c.kind = .value := by
  intro e s swap literals
  have hreached : Reached {} (fun _ => .unknown) s := reached_twoVariables {} _ 1
  have hnames : 2 ≤ ["a", "b"].length := by decide
  have hnodup : ["a", "b"].Nodup := by decide
  have hok : (e.execStatement swap s).1.isOk = true := by decide +kernel
  have ha : (e.evalExpr (.var "a") (e.execStatement swap s).2).1.int? = some 2 := by
    decide +kernel
  have hb : (e.evalExpr (.var "b") (e.execStatement swap s).2).1.int? = some 1 := by
    decide +kernel
  obtain ⟨completion, hswap⟩ := Outcome.exists_of_isOk hok
  constructor
  · obtain ⟨vs, s', -, hundisturbed, -, hassigned⟩ :=
      (hreached.simultaneous_assignment hnames hnodup [.var "b", .var "a"] 1 1).1 completion _ hswap
    exact ⟨completion, _, vs, s', hswap, hundisturbed, hassigned,
      evalExpr_of_int? ha, evalExpr_of_int? hb⟩
  · obtain ⟨error, c, hraised, hcause, hkind, -⟩ :=
      (hreached.simultaneous_assignment hnames hnodup literals 1 1).2
        [.int 1, .int 2, .int 3] s rfl (by decide)
    exact ⟨error, c, hraised, hcause, hkind⟩

end Classlet
