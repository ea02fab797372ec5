import Classlet.Proofs.Run.Imports

/-! # Kept modules stay

A module is kept under its path when it has run to the end, and imports of the path get it from then
on.  A path that is being imported is not kept (`Moment.Unkept`), since the import began without a
kept module and nothing inside it can import the path again.  So no import replaces a module that
is kept: only the host does, by evaluating a module at its path (`Trail.cached`). -/

namespace Classlet

open Eval

/-! ### Looking for kept modules -/

namespace State

theorem cached?_congr (s : State) {p q : Path} (h : p.Same q) : s.cached? p = s.cached? q := by
  have hiff : ∀ r : Path, r.Same p ↔ r.Same q := fun r =>
    ⟨fun hr => hr.trans h, fun hr => hr.trans h.symm⟩
  unfold cached?
  simp only [hiff]

theorem cached?_keep (s : State) (p : Path) (r : ModuleRef) (q : Path) :
    (s.keep p r).cached? q = if p.Same q then some r else s.cached? q := by
  unfold cached? keep
  dsimp only
  rw [List.find?_cons]
  split
  · rename_i hsame
    rw [if_pos (of_decide_eq_true hsame)]
    rfl
  · rename_i hsame
    have hne : ¬ p.Same q := of_decide_eq_false hsame
    rw [if_neg hne, List.find?_filter]
    congr 2
    funext entry
    by_cases hq : entry.1.Same q
    · have hp : ¬ entry.1.Same p := fun hp => hne (hp.symm.trans hq)
      simp [hp, hq]
    · simp [hq]

/-- An import of a path that is kept gives the module, and leaves all as it was. -/
theorem importModule_of_cached {s : State} {e : Engine} {target : ImportPath}
    {parent : Option ModuleRef} {p : Path} {r : ModuleRef}
    (hp : importPath e target parent s = (.ok p, s)) (hr : s.cached? p = some r) :
    importModule e target parent s = (.ok r, s) := by
  unfold importModule
  rw [bind_apply, hp]
  dsimp only
  rw [bind_apply, Eval.read]
  dsimp only
  rw [hr]
  rfl

end State

namespace Moment

variable {m₀ m m' : Moment} {p : Path} {r : ModuleRef}

/-! ### Paths that are being imported -/

/-- Since a moment at which nothing ran, every path that is being imported was asked from the
loader, and is not kept. -/
structure Unkept (m₀ m : Moment) : Prop where
  loaded : ∀ x ∈ m.running, x.hosted = false → x.path ∈ m₀.loaded m
  uncached : m₀.Canonical m → ∀ x ∈ m.running, x.hosted = false → m.state.cached? x.path = none

theorem loaded_subset (m₀ : Moment) (hloads : m.state.loads.toList <+: m'.state.loads.toList) :
    m₀.loaded m ⊆ m₀.loaded m' :=
  (hloads.drop _).subset

theorem Idle.unkept (h : m.Idle) : Unkept m m := by
  have hnone : m.running = [] := by rw [running, h.pending]; rfl
  constructor
  · rw [hnone]
    exact fun _ hx => by cases hx
  · rw [hnone]
    exact fun _ _ hx => by cases hx

/-- What begins does not change what is kept. -/
theorem cached?_enter {x : Running} {path : Path} {source : Option String}
    {parent : Option ModuleRef} {s : State} (loads : Array Path)
    (hnew : openModule path source parent { m.state with loads := loads } = (.ok r, s))
    (p : Path) : (m.enter s x).state.cached? p = m.state.cached? p := by
  have hcache : s.cache = m.state.cache := (congrArg (fun r => r.2.cache) hnew).symm
  show (s.cache.find? _).map _ = _
  rw [hcache]
  rfl

theorem running_eq_cons {x : Running} {rest : List Pending} (h : m.pending = .module x :: rest) :
    m.running = x :: rest.filterMap Pending.running? := by
  rw [running, h]
  rfl

theorem Step.unkept (h : m.Step m') (hnested : Nested m₀ m) (hm : Unkept m₀ m) :
    Unkept m₀ m' := by
  have hsubset := loaded_subset m₀ h.loads
  rcases h.quiet_or_module with hquiet | hmodule
  · have hcached : ∀ p, m'.state.cached? p = m.state.cached? p := fun p => by
      rw [State.cached?, hquiet.cache]
      rfl
    constructor
    · rw [hquiet.running]
      exact fun x hx hhosted => hsubset (hm.loaded x hx hhosted)
    · rw [hquiet.running]
      intro hcanonical x hx hhosted
      rw [hcached]
      exact hm.uncached (hcanonical.of_prefix h.loads) x hx hhosted
  · cases hmodule with
    | @imported q _ _ _ _ hparent hcached hchain hnew =>
        constructor
        · intro x hx hhosted
          rcases List.mem_cons.mp hx with rfl | hx
          · exact mem_loaded_enter hnested.loads hnew
          · exact hsubset (hm.loaded x hx hhosted)
        · intro hcanonical x hx hhosted
          rw [cached?_enter _ hnew]
          rcases List.mem_cons.mp hx with rfl | hx
          · exact hcached
          · exact hm.uncached (hcanonical.of_prefix h.loads) x hx hhosted
    | evaluated hidle hnew =>
        have honly : ∀ y : Running, y.hosted = true → ∀ s, ∀ x ∈ (m.enter s y).running,
            x.hosted = true := by
          intro y hy s x hx
          rw [running, Moment.enter, hidle] at hx
          rcases List.mem_cons.mp hx with rfl | hx
          · exact hy
          · cases hx
        constructor
        · intro x hx hhosted
          cases (honly _ rfl _ x hx).symm.trans hhosted
        · intro _ x hx hhosted
          cases (honly _ rfl _ x hx).symm.trans hhosted
    | @completed y rest exports hpending =>
        have hmem : ∀ x ∈ rest.filterMap Pending.running?, x ∈ m.running := by
          rw [running_eq_cons hpending]
          exact fun x => List.mem_cons_of_mem y
        constructor
        · exact fun x hx hhosted => hsubset (hm.loaded x (hmem x hx) hhosted)
        · intro hcanonical x hx hhosted
          have hbefore := hcanonical.of_prefix h.loads
          -- the path that is kept now is not the one that is still being imported
          have hdistinct := hnested.distinct hbefore
          rw [running_eq_cons hpending] at hdistinct
          have hne := (List.pairwise_cons.mp hdistinct).1 x hx
          have hx' := hbefore x.path (hm.loaded x (hmem x hx) hhosted)
          show (State.keep _ (Location.canonical y.path) y.ref).cached? x.path = none
          rw [State.cached?_keep, if_neg fun hsame => hne (hsame.trans hx'.symm)]
          exact hm.uncached hbefore x (hmem x hx) hhosted
    | @failed y rest trace hpending =>
        have hmem : ∀ x ∈ rest.filterMap Pending.running?, x ∈ m.running := by
          rw [running_eq_cons hpending]
          exact fun x => List.mem_cons_of_mem y
        constructor
        · exact fun x hx hhosted => hsubset (hm.loaded x (hmem x hx) hhosted)
        · intro hcanonical x hx hhosted
          exact hm.uncached (hcanonical.of_prefix h.loads) x (hmem x hx) hhosted

theorem Trail.unkept (h : m₀.Leads m) (hidle : m₀.Idle) : Nested m₀ m ∧ Unkept m₀ m :=
  h.keeps (Q := fun m => Nested m₀ m ∧ Unkept m₀ m)
    (fun _ hstep _ hm => ⟨hstep.nested hm.1, hstep.unkept hm.1 hm.2⟩)
    ⟨hidle.nested, hidle.unkept⟩

/-! ### Modules that are kept -/

theorem Step.hosted (h : m.Step m') : ∃ new, m'.hosted = new ++ m.hosted := by
  rcases h.quiet_or_module with hquiet | hmodule
  · exact ⟨[], hquiet.hosted⟩
  · cases hmodule with
    | imported _ _ _ _ => exact ⟨[], rfl⟩
    | evaluated _ _ => exact ⟨[], rfl⟩
    | @completed x _ _ _ =>
        unfold Moment.finish
        dsimp only
        split
        · exact ⟨[_], rfl⟩
        · exact ⟨[], rfl⟩
    | failed _ _ => exact ⟨[], rfl⟩

theorem Trail.hosted {P : Moment → Prop} (h : Trail P m m') :
    ∃ new, m'.hosted = new ++ m.hosted := by
  induction h with
  | refl _ => exact ⟨[], rfl⟩
  | step _ hstep _ ih =>
      obtain ⟨new, hnew⟩ := ih
      obtain ⟨newer, hnewer⟩ := hstep.hosted
      exact ⟨newer ++ new, by rw [hnewer, hnew, List.append_assoc]⟩

/-- **One step does not replace a kept module**, unless the host has evaluated its path. -/
theorem Step.cached (h : m.Step m') (hm : Unkept m₀ m) (hcanonical : m₀.Canonical m)
    (hr : m.state.cached? p = some r) {new : List Path} (hnew : m'.hosted = new ++ m.hosted)
    (hfree : ∀ q ∈ new, ¬ q.Same p) : m'.state.cached? p = some r := by
  rcases h.quiet_or_module with hquiet | hmodule
  · rw [State.cached?, hquiet.cache]
    exact hr
  · cases hmodule with
    | imported _ _ _ hmade => exact (cached?_enter _ hmade p).trans hr
    | evaluated _ hmade => exact (cached?_enter m.state.loads hmade p).trans hr
    | @completed x rest exports hpending =>
        have hx : x ∈ m.running := by
          rw [running_eq_cons hpending]
          exact List.mem_cons_self
        have hne : ¬ (Location.canonical x.path).Same p := by
          intro hsame
          cases hhosted : x.hosted with
          | true =>
              unfold Moment.finish at hnew
              simp only [hhosted, if_true] at hnew
              have hone : [Location.canonical x.path] = new := List.append_cancel_right hnew
              exact hfree _ (hone ▸ List.mem_singleton_self _) hsame
          | false =>
              have hpath := hcanonical x.path (hm.loaded x hx hhosted)
              have hnone := hm.uncached hcanonical x hx hhosted
              rw [m.state.cached?_congr (hpath.symm.trans hsame), hr] at hnone
              cases hnone
        show (State.keep _ (Location.canonical x.path) x.ref).cached? p = some r
        rw [State.cached?_keep, if_neg hne]
        exact hr
    | failed _ _ => exact hr

/-- A module stays kept as long as the host evaluates no module at its path. -/
theorem Trail.cached (h : m.Leads m') (hidle : m₀.Idle) (hm : m₀.Leads m)
    (hcanonical : m₀.Canonical m') (hr : m.state.cached? p = some r) {new : List Path}
    (hnew : m'.hosted = new ++ m.hosted) (hfree : ∀ q ∈ new, ¬ q.Same p) :
    m'.state.cached? p = some r := by
  induction h generalizing new with
  | refl _ => exact hr
  | @step m₁ m₂ htrail hstep _ ih =>
      obtain ⟨early, hearly⟩ := htrail.hosted
      obtain ⟨late, hlate⟩ := hstep.hosted
      have hsplit : new = late ++ early := by
        rw [hlate, hearly, ← List.append_assoc] at hnew
        exact (List.append_cancel_right hnew).symm
      have hbefore := hcanonical.of_prefix hstep.loads
      have hkept := ih hbefore hearly fun q hq => hfree q (hsplit ▸ List.mem_append_right _ hq)
      exact hstep.cached (hm.trans htrail |>.unkept hidle).2 hbefore hkept hlate
        fun q hq => hfree q (hsplit ▸ List.mem_append_left _ hq)

/-! ### Imports -/

/-- The moment at which a module that is being imported ends. -/
theorem unkept_of_enter {x : Running} {s₁ s : State} (hidle : m₀.Idle) (hm : m₀.Leads m)
    (hbegins : m.Begins s₁ x)
    (hrun : (m.enter s₁ x).Leads ((m.enter s₁ x).withState s)) (hx : x.hosted = false) :
    x.path ∈ m₀.loaded ((m.enter s₁ x).withState s) ∧
      (m₀.Canonical ((m.enter s₁ x).withState s) → s.cached? x.path = none) := by
  have hleads := (hm.trans (hbegins.leads hm.last hrun.first)).trans hrun
  have hunkept := (hleads.unkept hidle).2
  have hmem : x ∈ ((m.enter s₁ x).withState s).running := List.mem_cons_self
  exact ⟨hunkept.loaded x hmem hx, fun hcanonical => hunkept.uncached hcanonical x hmem hx⟩

theorem Imports.cached {s : State} (h : m.Imports p (.ok r, s)) (hidle : m₀.Idle)
    (hm : m₀.Leads m) (hcanonical : m₀.Canonical (m.withState s)) : s.cached? p = some r := by
  cases h with
  | found hr => exact hr
  | refused _ ho _ => exact absurd rfl (ho r)
  | ran _ hpath hx hrun =>
      subst hpath
      cases hrun with
      | kept exports hbegins hrun =>
          have hloaded := (unkept_of_enter hidle hm hbegins hrun hx).1
          rw [State.finish, State.cached?_keep, if_pos (hcanonical _ hloaded)]
      | lost _ _ _ ho => exact absurd rfl (ho r)

/-- An import that returns no module leaves its path as unkept as it was. -/
theorem Imports.uncached {o : Outcome ModuleRef} {s : State} (h : m.Imports p (o, s))
    (hidle : m₀.Idle) (hm : m₀.Leads m) (hcanonical : m₀.Canonical (m.withState s))
    (ho : ∀ r, o ≠ .ok r) (hnone : m.state.cached? p = none) : s.cached? p = none := by
  cases h with
  | found _ => exact absurd rfl (ho _)
  | refused _ _ hworks =>
      rw [State.cached?, hworks.cache]
      exact hnone
  | ran _ hpath hx hrun =>
      subst hpath
      cases hrun with
      | kept exports _ _ => exact absurd rfl (ho _)
      | lost trace hbegins hrun _ => exact (unkept_of_enter hidle hm hbegins hrun hx).2 hcanonical

/-- **Kept modules stay.**  Take an import at any moment of what the host does with an interpreter,
where the paths that are met are canonical.  It takes steps.  If it returns a module, every import
of the path that follows returns this module and leaves all as it was, as long as the host has not
evaluated a module at the path in between.  If it returns none, a path that was not kept is not
kept. -/
theorem kept_modules_stay {settings : Settings} {loader : Loader} {fuel : Nat}
    {target : ImportPath} {parent : Option ModuleRef} (hidle : m₀.Idle) (hm : m₀.Leads m)
    (hparent : m.pending = [] ∨ parent = m.state.activation.module)
    (hp : importPath (engine settings loader fuel) target parent m.state = (.ok p, m.state))
    {o : Outcome ModuleRef} {s : State}
    (hrun : importModule (engine settings loader fuel) target parent m.state = (o, s)) :
    m.Leads (m.withState s) ∧
    (∀ r, o = .ok r → ∀ (m' : Moment) (new : List Path), (m.withState s).Leads m' →
      m₀.Canonical m' → m'.hosted = new ++ m.hosted → (∀ q ∈ new, ¬ q.Same p) →
      ∀ (e : Engine) (target' : ImportPath) (parent' : Option ModuleRef) (p' : Path),
        importPath e target' parent' m'.state = (.ok p', m'.state) → p'.Same p →
        importModule e target' parent' m'.state = (.ok r, m'.state)) ∧
    (m₀.Canonical (m.withState s) → (∀ r, o ≠ .ok r) → m.state.cached? p = none →
      s.cached? p = none) := by
  have himports := imports_importModule (paced_execStatements settings loader fuel) target
    hm.last hparent hp
  have hsound := (isolated_query settings loader fuel (.importModule target parent) m.state
    hm.last.sound).sound
  have hsound' : s.Sound := by
    rwa [show Query.run _ (.importModule target parent) m.state = (o, s) from hrun] at hsound
  rw [hrun] at himports
  have hleads := himports.leads hm.last hsound'
  refine ⟨hleads, fun r ho m' new hlater hcanonical hnew hfree e target' parent' p' hp' hsame => ?_,
    fun hcanonical ho hnone => himports.uncached hidle hm hcanonical ho hnone⟩
  subst ho
  have hloads := hlater.loads
  have hkept := himports.cached hidle hm (hcanonical.of_prefix hloads)
  have hstays := hlater.cached hidle (hm.trans hleads) hcanonical hkept hnew hfree
  exact State.importModule_of_cached hp' ((m'.state.cached?_congr hsame).trans hstays)

/-- A module that is imported twice. -/
theorem kept_modules_stay_second_import : ∃ r s,
    importModule (engine {} (fun _ => .text "x = 1;") 1) (.relative "a") none State.initial =
      (.ok r, s) ∧
    importModule (engine {} (fun _ => .text "x = 1;") 1) (.relative "a") none s = (.ok r, s) := by
  let e := engine {} (fun _ => .text "x = 1;") 1
  let p := Location.resolve (.relative "a") none ({} : Settings).libraryRoot
  have hpath : ∀ s, importPath e (.relative "a") none s = (.ok p, s) := fun _ => rfl
  rcases hrun : importModule e (.relative "a") none start.state with ⟨o, s⟩
  obtain ⟨hnone, hkept, hcanonical⟩ : start.state.cached? p = none ∧
      ((importModule e (.relative "a") none start.state).2.cached? p).isSome ∧
      ∀ p ∈ start.loaded (start.after (importModule e (.relative "a") none)),
        (Location.canonical p).Same p := by
    decide +kernel
  unfold Moment.after at hcanonical
  rw [hrun] at hkept hcanonical
  obtain ⟨hleads, hstays, hlost⟩ :=
    kept_modules_stay idle_start (.refl fit_start) (.inl rfl) (hpath _) hrun
  obtain ⟨r, rfl⟩ : ∃ r, o = .ok r := by
    by_contra hfailed
    rw [hlost hcanonical (fun r h => hfailed ⟨r, h⟩) hnone] at hkept
    cases hkept
  have hagain := hstays r rfl _ [] (.refl hleads.last) hcanonical rfl (fun _ hq => by cases hq)
    e (.relative "a") none _ (hpath _) rfl
  exact ⟨r, s, hrun, hagain⟩

end Moment

end Classlet
