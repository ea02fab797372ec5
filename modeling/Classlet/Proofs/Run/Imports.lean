import Classlet.Proofs.Run.Adequacy

/-! # No module is evaluated inside its own evaluation

An import is refused if its path is in the import chain of the module that is running.  The chain is
walked along the parents of modules, while a run nests modules and calls of functions in its pending
work.  `Linked` says that the two agree: the code that is running, and every code that waits, runs
for the module that was entered last before it, and the parent of a module is the one for which it
was imported.  Hence all modules that are being evaluated are in the chain
(`Linked.mem_importChain`), and no path is begun twice (`Moment.Nested`).

A path is compared as it was resolved and is kept as the canonical form of that, so the paths that
are met have to be canonical (`Moment.Canonical`). -/

namespace Classlet

open Eval

namespace Path.Same

variable {p q r : Path}

theorem symm (h : p.Same q) : q.Same p := Eq.symm h

theorem trans (h₁ : p.Same q) (h₂ : q.Same r) : p.Same r := Eq.trans h₁ h₂

end Path.Same

/-! ### Memory -/

/-- The modules of `k` have the same path and the same parent in `l`. -/
structure Memory.Continues (k l : Memory) : Prop where
  size_le : k.modules.size ≤ l.modules.size
  path : ∀ r : ModuleRef, r.index < k.modules.size → (l.moduleInfo r).path = (k.moduleInfo r).path
  parent : ∀ r : ModuleRef, r.index < k.modules.size →
    (l.moduleInfo r).parent = (k.moduleInfo r).parent

namespace Memory

variable {k l : Memory}

theorem continues_of_modules (h : l.modules = k.modules) : k.Continues l := by
  refine ⟨by rw [h], fun r _ => ?_, fun r _ => ?_⟩
  · rw [moduleInfo, moduleInfo, h]
  · rw [moduleInfo, moduleInfo, h]

theorem moduleInfo_newModule_of_lt (k : Memory) (d : Module) {r : ModuleRef}
    (h : r.index < k.modules.size) : (k.newModule d).2.moduleInfo r = k.moduleInfo r := by
  unfold moduleInfo newModule
  rw [Array.getElem?_push_lt h, Array.getElem?_eq_getElem h]

theorem continues_newModule (k : Memory) (d : Module) : k.Continues (k.newModule d).2 where
  size_le := by simp [newModule]
  path r h := by rw [moduleInfo_newModule_of_lt k d h]
  parent r h := by rw [moduleInfo_newModule_of_lt k d h]

theorem moduleInfo_setExports (k : Memory) (q r : ModuleRef) (exports : Bindings Value) :
    ((k.setExports q exports).moduleInfo r).path = (k.moduleInfo r).path ∧
      ((k.setExports q exports).moduleInfo r).parent = (k.moduleInfo r).parent := by
  unfold moduleInfo setExports
  rw [Array.getElem?_modify]
  split
  · cases k.modules[r.index]? <;> exact ⟨rfl, rfl⟩
  · exact ⟨rfl, rfl⟩

theorem continues_setExports (k : Memory) (q : ModuleRef) (exports : Bindings Value) :
    k.Continues (k.setExports q exports) where
  size_le := by simp [setExports]
  path r _ := (moduleInfo_setExports k q r exports).1
  parent r _ := (moduleInfo_setExports k q r exports).2

end Memory

/-! ### Linked work -/

/-- The module of an evaluation is in memory, with its path, and its parent is the older module for
which it was begun. -/
structure Running.Known (x : Running) (k : Memory) : Prop where
  index_lt : x.ref.index < k.modules.size
  path : (k.moduleInfo x.ref).path = Location.canonical x.path
  parent : ∀ q, x.caller.module = some q →
    (k.moduleInfo x.ref).parent = some q ∧ q.index < x.ref.index

/-- Work that is pending while code runs for a module: all that waits runs for the module that was
entered last before it. -/
inductive Linked (k : Memory) : Option ModuleRef → List Pending → Prop where
  | idle {current : Option ModuleRef} : current = none → Linked k current []
  | block {current : Option ModuleRef} {rest : List Pending} (c : ContextId) (scope : ScopeId) :
      Linked k current rest → Linked k current (.block c scope :: rest)
  | call {current : Option ModuleRef} {rest : List Pending} (c : ContextId) :
      Linked k current rest → Linked k current (.call c :: rest)
  | body {current : Option ModuleRef} {rest : List Pending} {caller : Activation} (depth : Nat) :
      caller.module = current → Linked k current rest →
      Linked k current (.body caller depth :: rest)
  | module {current : Option ModuleRef} {rest : List Pending} {x : Running} :
      current = some x.ref → x.Known k → Linked k x.caller.module rest →
      Linked k current (.module x :: rest)

namespace Linked

variable {k l : Memory} {current : Option ModuleRef} {pending : List Pending} {r : ModuleRef}

theorem mono (h : Linked k current pending) (hkl : k.Continues l) : Linked l current pending := by
  induction h with
  | idle hcurrent => exact .idle hcurrent
  | block c scope _ ih => exact .block c scope ih
  | call c _ ih => exact .call c ih
  | body depth hcaller _ ih => exact .body depth hcaller ih
  | module hcurrent hx _ ih =>
      refine .module hcurrent ⟨hx.index_lt.trans_le hkl.size_le, ?_, fun q hq => ?_⟩ ih
      · rw [hkl.path _ hx.index_lt, hx.path]
      · rw [hkl.parent _ hx.index_lt]
        exact hx.parent q hq

theorem index_lt (h : Linked k current pending) (hr : current = some r) :
    r.index < k.modules.size := by
  induction h with
  | idle hcurrent => cases hcurrent.symm.trans hr
  | block _ _ _ ih => exact ih hr
  | call _ _ ih => exact ih hr
  | body _ _ _ ih => exact ih hr
  | module hcurrent hx _ _ =>
      cases hcurrent.symm.trans hr
      exact hx.index_lt

/-- Every module that is being evaluated is in memory. -/
theorem known (h : Linked k current pending) {x : Running}
    (hx : x ∈ pending.filterMap Pending.running?) : x.Known k := by
  induction h with
  | idle _ => cases hx
  | block _ _ _ ih => exact ih hx
  | call _ _ ih => exact ih hx
  | body _ _ _ ih => exact ih hx
  | module _ hy _ ih =>
      rcases List.mem_cons.mp hx with rfl | hx
      · exact hy
      · exact ih hx

/-- **The import chain of the running module holds every module that is being evaluated.** -/
theorem mem_importChain (h : Linked k current pending) {x : Running}
    (hx : x ∈ pending.filterMap Pending.running?) :
    ∃ r, current = some r ∧ ∀ fuel, r.index < fuel → x.ref ∈ k.importersFrom fuel r := by
  induction h with
  | idle _ => cases hx
  | block _ _ _ ih => exact ih hx
  | call _ _ ih => exact ih hx
  | body _ _ _ ih => exact ih hx
  | @module current rest y hcurrent hy _ ih =>
      refine ⟨y.ref, hcurrent, fun fuel hfuel => ?_⟩
      obtain ⟨fuel, rfl⟩ : ∃ n, fuel = n + 1 := ⟨fuel - 1, by omega⟩
      rw [Memory.importersFrom]
      rcases List.mem_cons.mp hx with rfl | hx
      · exact List.mem_cons_self
      · -- the importer is older, so that the walk gets from it to the module
        obtain ⟨q, hq, hwalk⟩ := ih hx
        obtain ⟨hparent, hlt⟩ := hy.parent q hq
        rw [hparent]
        exact List.mem_cons_of_mem _ (hwalk fuel (by omega))

/-- The path of a module that is being evaluated is in the import chain. -/
theorem inImportChain (h : Linked k current pending) {x : Running}
    (hx : x ∈ pending.filterMap Pending.running?) {p : Path}
    (hp : (Location.canonical x.path).Same p) :
    ∃ r, current = some r ∧ k.inImportChain r p := by
  obtain ⟨r, hr, hmem⟩ := h.mem_importChain hx
  refine ⟨r, hr, List.any_eq_true.mpr ⟨x.ref, hmem _ (Nat.lt_succ_self _), ?_⟩⟩
  rw [(h.known hx).path]
  exact decide_eq_true hp

end Linked

namespace Moment

variable {m m' : Moment}

/-! ### What a step does to modules -/

/-- Neither modules nor the work of evaluating them has changed. -/
structure Quiet (m m' : Moment) : Prop where
  running : m'.running = m.running
  linked : ∀ k, Linked k m.state.activation.module m.pending →
    Linked k m'.state.activation.module m'.pending
  cache : m'.state.cache = m.state.cache
  modules : m'.state.memory.modules = m.state.memory.modules
  hosted : m'.hosted = m.hosted
  loads : m.state.loads.toList <+: m'.state.loads.toList

theorem Quiet.of_state {s : State} (hactivation : s.activation = m.state.activation)
    (hcache : s.cache = m.state.cache) (hmodules : s.memory.modules = m.state.memory.modules)
    (hloads : m.state.loads.toList <+: s.loads.toList) : Quiet m (m.withState s) where
  running := rfl
  linked k h := by
    unfold withState
    rw [hactivation]
    exact h
  cache := hcache
  modules := hmodules
  hosted := rfl
  loads := hloads

theorem Quiet.of_bindAt {place : Store → Except BindFault ScopeId} {f : Store → ScopeId → Store}
    (hf : ∀ t r, (f t r).memory.modules = t.memory.modules) :
    Quiet m (m.withState (bindAt place f m.state).2) := by
  rcases bindAt_cases place f m.state with h | ⟨r, -, h⟩
  · rw [h]
    exact .of_state rfl rfl rfl List.prefix_rfl
  · rw [h]
    exact .of_state rfl rfl (hf _ _) List.prefix_rfl

theorem modules_bindCopy (t : Store) (r : ScopeId) (name : String) (v : Value) :
    (t.bindCopy r name v).memory.modules = t.memory.modules :=
  (t.memory.alters_copyForBinding v).modules

theorem Step.quiet_or_module (h : m.Step m') : Quiet m m' ∨ m.ModuleStep m' := by
  cases h with
  | worked hworks =>
      exact .inl (.of_state hworks.activation hworks.cache hworks.modules hworks.loads)
  | collected hcollects =>
      have htrims := hcollects.trims
      exact .inl (.of_state htrims.activation htrims.cache (by rw [htrims.memory])
        (by rw [htrims.loads]))
  | captured decl returns _ => exact .inl (.of_state rfl rfl rfl List.prefix_rfl)
  | assigned name v => exact .inl (.of_bindAt fun t r => modules_bindCopy t r name v)
  | bound c shared name v _ =>
      unfold bindNew
      split
      · exact .inl (.of_bindAt (f := fun t r => t.bindShared r name v) fun _ _ => rfl)
      · exact .inl (.of_bindAt fun t r => modules_bindCopy t r name v)
  | opened => exact .inl ⟨rfl, fun _ h => .block _ _ h, rfl, rfl, rfl, List.prefix_rfl⟩
  | closed hpending _ =>
      refine .inl ⟨by rw [running, running, hpending]; rfl, fun k h => ?_, rfl, rfl, rfl,
        List.prefix_rfl⟩
      rw [hpending] at h
      cases h with
      | block _ _ h => exact h
  | called _ henter =>
      obtain ⟨-, hs⟩ := openCall_eq_ok henter
      rw [hs]
      exact .inl ⟨rfl, fun _ h => .call _ h, rfl, rfl, rfl, List.prefix_rfl⟩
  | began unit name hpending =>
      exact .inl ⟨rfl, fun _ h => .body _ rfl h, rfl, rfl, rfl, List.prefix_rfl⟩
  | ended hpending =>
      refine .inl ⟨by rw [running, running, hpending]; rfl, fun k h => ?_, rfl, rfl, rfl,
        List.prefix_rfl⟩
      rw [hpending] at h
      cases h with
      | body _ hcaller h =>
          rw [← hcaller] at h
          exact h
  | returned hpending _ _ _ _ =>
      refine .inl ⟨by rw [running, running, hpending]; rfl, fun k h => ?_, rfl, rfl, rfl,
        List.prefix_rfl⟩
      rw [hpending] at h
      cases h with
      | call _ h => exact h
  | module hstep => exact .inr hstep

/-! ### Linked moments -/

/-- The work that is pending is linked to the code that is running. -/
def IsLinked (m : Moment) : Prop := Linked m.state.memory m.state.activation.module m.pending

theorem IsLinked.enter {x : Running} {source : Option String} {parent : Option ModuleRef}
    {s : State} (loads : Array Path) (h : m.IsLinked)
    (hparent : m.pending = [] ∨ parent = m.state.activation.module)
    (hcaller : x.caller = m.state.activation)
    (hnew : openModule (Location.canonical x.path) source parent
      { m.state with loads := loads } = (.ok x.ref, s)) : (m.enter s x).IsLinked := by
  let d := Module.ofSource (Location.canonical x.path) parent
    (m.state.scopes.openContext (some m.state.root)).1 ⟨(Location.canonical x.path).text, source⟩
  have hmemory : s.memory = (m.state.memory.newModule d).2 :=
    (congrArg (fun r => r.2.memory) hnew).symm
  have href : x.ref = ⟨m.state.memory.modules.size⟩ :=
    (Outcome.ok.inj (congrArg Prod.fst hnew)).symm
  have hinfo : s.memory.moduleInfo x.ref = d := by
    rw [hmemory, href]
    simp [Memory.newModule, Memory.moduleInfo]
  refine .module rfl ⟨?_, ?_, fun q hq => ?_⟩ ?_
  · show x.ref.index < s.memory.modules.size
    rw [hmemory, href]
    simp [Memory.newModule]
  · show (s.memory.moduleInfo x.ref).path = _
    rw [hinfo]
    rfl
  · rw [hcaller] at hq
    show (s.memory.moduleInfo x.ref).parent = _ ∧ _
    rw [hinfo, href]
    refine ⟨?_, h.index_lt hq⟩
    -- the host gives no module a parent for which code waits
    rcases hparent with hidle | hparent
    · unfold IsLinked at h
      rw [hidle] at h
      cases h with
      | idle hnone => cases hnone.symm.trans hq
    · exact hparent.trans hq
  · show Linked s.memory x.caller.module m.pending
    rw [hcaller, hmemory]
    exact h.mono (m.state.memory.continues_newModule d)

theorem Step.isLinked (h : m.Step m') (hm : m.IsLinked) : m'.IsLinked := by
  rcases h.quiet_or_module with hquiet | hmodule
  · exact (hquiet.linked _ hm).mono (Memory.continues_of_modules hquiet.modules)
  · cases hmodule with
    | imported hparent _ _ hnew => exact hm.enter _ hparent rfl hnew
    | evaluated hidle hnew =>
        exact hm.enter m.state.loads (.inl hidle) rfl hnew
    | @completed x rest exports hpending =>
        unfold IsLinked at hm
        rw [hpending] at hm
        cases hm with
        | module _ _ hrest => exact hrest.mono (m.state.memory.continues_setExports x.ref exports)
    | failed trace hpending =>
        unfold IsLinked at hm
        rw [hpending] at hm
        cases hm with
        | module _ _ hrest => exact hrest

/-- A path of a module that is being evaluated cannot be imported, unless it is kept. -/
theorem IsLinked.refuses {e : Engine} {target : ImportPath} {p : Path} (h : m.IsLinked)
    (hp : importPath e target m.state.activation.module m.state = (.ok p, m.state))
    (hcached : m.state.cached? p = none) {x : Running} (hx : x ∈ m.running)
    (hsame : (Location.canonical x.path).Same p) :
    importModule e target m.state.activation.module m.state =
      (.raised (.ofCause (.cyclicImport p)), m.state) := by
  obtain ⟨r, hr, hchain⟩ := h.inImportChain hx hsame
  unfold importModule
  rw [bind_apply, hp]
  dsimp only
  rw [bind_apply, Eval.read]
  dsimp only
  rw [hcached]
  dsimp only
  unfold importNew
  rw [bind_apply, readMemory]
  dsimp only
  rw [hr, Option.any_some, hchain]
  rfl

/-! ### Paths that are met -/

/-- The paths that were asked from the loader between two moments. -/
def loaded (m m' : Moment) : List Path := m'.state.loads.toList.drop m.state.loads.size

/-- The paths that were asked from the loader between two moments are canonical. -/
def Canonical (m m' : Moment) : Prop := ∀ p ∈ m.loaded m', (Location.canonical p).Same p

theorem loads_enter {x : Running} {p : Path} {source : Option String} {parent : Option ModuleRef}
    {r : ModuleRef} {s : State} (loads : Array Path)
    (hnew : openModule p source parent { m.state with loads := loads } = (.ok r, s)) :
    (m.enter s x).state.loads = loads :=
  (congrArg (fun r => r.2.loads) hnew).symm

/-- What was asked from the loader stays noted. -/
theorem Step.loads (h : m.Step m') : m.state.loads.toList <+: m'.state.loads.toList := by
  rcases h.quiet_or_module with hquiet | hmodule
  · exact hquiet.loads
  · cases hmodule with
    | imported _ _ _ hnew =>
        rw [loads_enter _ hnew]
        exact Memory.prefix_push _ _
    | evaluated _ hnew => rw [loads_enter m.state.loads hnew]
    | completed _ _ => exact List.prefix_rfl
    | failed _ _ => exact List.prefix_rfl

theorem Trail.loads {P : Moment → Prop} (h : Trail P m m') :
    m.state.loads.toList <+: m'.state.loads.toList := by
  induction h with
  | refl _ => exact List.prefix_rfl
  | step _ hstep _ ih => exact ih.trans hstep.loads

variable {m₀ : Moment}

theorem Canonical.of_prefix (h : m₀.Canonical m')
    (hloads : m.state.loads.toList <+: m'.state.loads.toList) : m₀.Canonical m :=
  fun p hp => h p ((hloads.drop _).subset hp)

/-- The path of a module that begins was asked for. -/
theorem mem_loaded_enter {x : Running} {p : Path} {source : Option String}
    {parent : Option ModuleRef} {r : ModuleRef} {s : State}
    (hloads : m₀.state.loads.toList <+: m.state.loads.toList)
    (hnew : openModule (Location.canonical p) source parent
      { m.state with loads := m.state.loads.push p } = (.ok r, s)) :
    p ∈ m₀.loaded (m.enter s x) := by
  have hle : m₀.state.loads.size ≤ m.state.loads.toList.length := hloads.length_le
  rw [loaded, loads_enter _ hnew, Array.toList_push, List.drop_append_of_le_length hle]
  exact List.mem_append_right _ (List.mem_singleton_self p)

/-! ### Nested evaluations -/

/-- Since a moment at which nothing ran, modules have been nested as their import chains say, and no
path was begun inside itself. -/
structure Nested (m₀ m : Moment) : Prop where
  linked : m.IsLinked
  loads : m₀.state.loads.toList <+: m.state.loads.toList
  distinct : m₀.Canonical m → m.running.Pairwise fun x y =>
    ¬ (Location.canonical x.path).Same (Location.canonical y.path)

/-- Nothing runs. -/
structure Idle (m : Moment) : Prop where
  fit : m.Fit
  pending : m.pending = []
  module : m.state.activation.module = none

theorem idle_start : start.Idle := ⟨fit_start, rfl, rfl⟩

theorem Idle.nested (h : m.Idle) : Nested m m where
  linked := by
    unfold IsLinked
    rw [h.pending]
    exact .idle h.module
  loads := List.prefix_rfl
  distinct _ := by
    rw [running, h.pending]
    exact .nil

/-- A module that is not in the import chain is none of those that are being evaluated. -/
theorem Nested.not_same {p : Path} {parent : Option ModuleRef} (h : Nested m₀ m)
    (hparent : m.pending = [] ∨ parent = m.state.activation.module)
    (hchain : (parent.any fun q => m.state.memory.inImportChain q p) = false) {x : Running}
    (hx : x ∈ m.running) : ¬ (Location.canonical x.path).Same p := by
  intro hsame
  obtain ⟨r, hr, hin⟩ := h.linked.inImportChain hx hsame
  rcases hparent with hidle | hparent
  · rw [running, hidle] at hx
    cases hx
  · rw [hparent, hr, Option.any_some, hin] at hchain
    cases hchain

theorem Step.nested (h : m.Step m') (hm : Nested m₀ m) : Nested m₀ m' := by
  refine ⟨h.isLinked hm.linked, hm.loads.trans h.loads, fun hcanonical => ?_⟩
  have hold := hm.distinct (hcanonical.of_prefix h.loads)
  rcases h.quiet_or_module with hquiet | hmodule
  · rw [hquiet.running]
    exact hold
  · cases hmodule with
    | @imported p _ _ _ _ hparent _ hchain hnew =>
        have hp := hcanonical p (mem_loaded_enter hm.loads hnew)
        refine List.pairwise_cons.mpr ⟨fun x hx hsame => ?_, hold⟩
        exact hm.not_same hparent hchain hx (hsame.symm.trans hp)
    | evaluated hidle _ =>
        refine List.pairwise_cons.mpr ⟨fun x hx => ?_, hold⟩
        rw [hidle] at hx
        cases hx
    | completed exports hpending =>
        rw [running, hpending] at hold
        exact (List.pairwise_cons.mp hold).2
    | failed trace hpending =>
        rw [running, hpending] at hold
        exact (List.pairwise_cons.mp hold).2

theorem Trail.nested (h : m₀.Leads m) (hidle : m₀.Idle) : Nested m₀ m :=
  h.keeps (fun _ hstep _ => hstep.nested) hidle.nested

/-- The paths of the modules that are being evaluated, the innermost first. -/
def paths (m : Moment) : List Path :=
  m.running.map fun x => (m.state.memory.moduleInfo x.ref).path

theorem IsLinked.paths_eq (h : m.IsLinked) :
    m.paths = m.running.map fun x => Location.canonical x.path :=
  List.map_congr_left fun _ hx => (h.known hx).path

/-- **No module is evaluated inside its own evaluation.**  What the host asks of an interpreter on
which nothing runs takes steps.  At every moment that comes of such steps, if the paths that were
met are canonical, the modules that are being evaluated have different paths; and an import of one
of these paths that finds no kept module fails, and leaves all as it was. -/
theorem evaluations_nest (hidle : m₀.Idle) (h : m₀.Leads m) (hcanonical : m₀.Canonical m) :
    (∀ (settings : Settings) (loader : Loader) (fuel : Nat) (call : HostCall), ∃ hosted,
      m₀.Leads { m₀ with
        state := (call.run (engine settings loader fuel) m₀.state).2, hosted := hosted }) ∧
    m.paths.Pairwise (fun p q => ¬ p.Same q) ∧
    ∀ (e : Engine) (target : ImportPath) (p : Path),
      importPath e target m.state.activation.module m.state = (.ok p, m.state) →
      m.state.cached? p = none → (∃ q ∈ m.paths, q.Same p) →
      importModule e target m.state.activation.module m.state =
        (.raised (.ofCause (.cyclicImport p)), m.state) ∧
      (Cause.cyclicImport p).kind.name = "ImportError" ∧
      (Cause.cyclicImport p).message = "cyclic import of '" ++ p.text ++ "'" := by
  have hnested := h.nested hidle
  have hpaths := hnested.linked.paths_eq
  refine ⟨fun settings loader fuel => HostCall.leads settings loader fuel hidle.fit hidle.pending,
    ?_, fun e target p hp hcached hsame => ⟨?_, rfl, rfl⟩⟩
  · rw [hpaths, List.pairwise_map]
    exact hnested.distinct hcanonical
  · rw [hpaths] at hsame
    obtain ⟨q, hq, hsame⟩ := hsame
    obtain ⟨x, hx, rfl⟩ := List.mem_map.mp hq
    exact hnested.linked.refuses hp hcached hx hsame

theorem openModule_of_size (p : Path) (source : Option String) (parent : Option ModuleRef)
    {s : State} {n : Nat} (h : s.memory.modules.size = n) :
    openModule p source parent s = (.ok ⟨n⟩, (openModule p source parent s).2) := by
  subst h
  rfl

/-- The module `a` imports `b`, and `b` imports `a`. -/
theorem evaluations_nest_two_modules : ∃ m : Moment, start.Leads m ∧ m.paths.length = 2 ∧
    m.paths.Pairwise (fun p q => ¬ p.Same q) ∧
    importModule (engine {} (fun _ => .unknown) 1) (.relative "a") m.state.activation.module
      m.state = (.raised (.ofCause (.cyclicImport ⟨"a.crv"⟩)), m.state) := by
  let s₁ := (openModule (Location.canonical ⟨"a"⟩) none none State.initial).2
  let m₁ := start.enter s₁ ⟨⟨"a"⟩, true, ⟨0⟩, State.initial.activation, State.initial.depth⟩
  let s₂ := (openModule (Location.canonical ⟨"b.crv"⟩) none (some ⟨0⟩)
    { m₁.state with loads := m₁.state.loads.push ⟨"b.crv"⟩ }).2
  let m₂ := m₁.enter s₂ ⟨⟨"b.crv"⟩, false, ⟨1⟩, m₁.state.activation, m₁.state.depth⟩
  obtain ⟨hsize, hsize', hcached, hchain, hcanonical, hlength, hresolve, hfound, hmem⟩ :
      State.initial.memory.modules.size = 0 ∧ m₁.state.memory.modules.size = 1 ∧
      m₁.state.cached? ⟨"b.crv"⟩ = none ∧
      ((some ⟨0⟩ : Option ModuleRef).any fun q =>
        m₁.state.memory.inImportChain q ⟨"b.crv"⟩) = false ∧
      (∀ p ∈ start.loaded m₂, (Location.canonical p).Same p) ∧ m₂.paths.length = 2 ∧
      Location.resolve (.relative "a") (m₂.state.activation.module.map fun r =>
        (m₂.state.memory.moduleInfo r).path) ({} : Settings).libraryRoot = ⟨"a.crv"⟩ ∧
      m₂.state.cached? ⟨"a.crv"⟩ = none ∧ (∃ q ∈ m₂.paths, q.Same ⟨"a.crv"⟩) := by
    decide +kernel
  have hnew₁ := openModule_of_size (Location.canonical ⟨"a"⟩) none none hsize
  have hnew₂ := openModule_of_size (Location.canonical ⟨"b.crv"⟩) none (some ⟨0⟩)
    (s := { m₁.state with loads := m₁.state.loads.push ⟨"b.crv"⟩ }) hsize'
  have hfit₁ : m₁.Fit := Fit.enter fit_start hnew₁
  have hfit₂ : m₂.Fit := Fit.enter (hfit₁.works (m₁.state.works_load ⟨"b.crv"⟩)) hnew₂
  have hstep₁ : start.Step m₁ := .module (.evaluated rfl hnew₁)
  have hstep₂ : m₁.Step m₂ := .module (.imported (.inr rfl) hcached hchain hnew₂)
  have hleads := (hstep₁.leads fit_start hfit₁).step hstep₂ hfit₂
  obtain ⟨-, hdistinct, hrefused⟩ := evaluations_nest idle_start hleads hcanonical
  have hp : importPath (engine {} (fun _ => .unknown) 1) (.relative "a")
      m₂.state.activation.module m₂.state = (.ok ⟨"a.crv"⟩, m₂.state) := by
    unfold importPath readMemory
    rw [← hresolve]
    rfl
  exact ⟨m₂, hleads, hlength, hdistinct, (hrefused _ _ _ hp hfound hmem).1⟩

end Moment

end Classlet
