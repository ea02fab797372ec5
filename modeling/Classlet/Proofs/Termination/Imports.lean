import Classlet.Proofs.Termination.Statements

/-! # Imports end

The module that is imported joins the import chain, so its code stands at a lower level
(`State.Begins.level_lt`).  A path that an import is resolved to is the path of the module, and that
is where the canonical paths come in: otherwise the chain could be asked for one path and get
another, and a module could import itself for ever.

A module publishes what the outermost scope of its context binds.  That scope is not the one of the
global names, so that `append` is not published. -/

namespace Classlet

open Eval Fragment

variable {P : Program} {s t u : State} {b : Nat}

/-! ### New modules -/

theorem Memory.moduleInfo_newModule (m : Memory) (d : Module) :
    (m.newModule d).2.moduleInfo (m.newModule d).1 = d := by
  simp [newModule, moduleInfo]

theorem Memory.Tame.inImportChain_newModule {m : Memory} (h : m.Tame P) {d : Module}
    (hparent : ∀ q, d.parent = some q → q.index < m.modules.size) (p : Path) :
    (m.newModule d).2.inImportChain (m.newModule d).1 p =
      (decide (d.path.Same p) || d.parent.any fun q => m.inImportChain q p) := by
  show ((m.newModule d).2.importersFrom (m.modules.size + 1) _).any _ = _
  rw [importersFrom, List.any_cons, moduleInfo_newModule]
  cases hq : d.parent with
  | none => rfl
  | some q =>
      have hlt := hparent q hq
      exact congrArg _ ((m.keeps_newModule d).any_importers h p _ _ hlt hlt (Nat.lt_succ_self _))

theorem State.Tame.openModule (hs : s.Tame P) {p : Path} (hp : P.Home p) (source : Option String) :
    ∃ r t, Classlet.openModule p source s.activation.module s = (.ok r, t) ∧ s.Reaches P t ∧
      t.scopes.Open (t.memory.moduleInfo r).context ∧
      (∀ scope ∈ (t.scopes.context (t.memory.moduleInfo r).context).scopes,
        ¬ s.scopes.FrameInUse scope) ∧
      ∀ unit, s.Begins P p { t with
        activation := ⟨(t.memory.moduleInfo r).context, unit, moduleScope, some r⟩
        depth := t.depth + 1 } := by
  obtain ⟨r, t, hnew, hsettles, -, hopen, hfresh⟩ :=
    openModule_spec p source s.activation.module hs.sound
  rw [hnew] at hsettles
  obtain ⟨-, base, hadds⟩ :=
    Arena.openContext_spec hs.sound.exact (some s.root) fun q hq => by
      cases hq
      exact hs.sound.root.1
  let d := Module.ofSource p s.activation.module (s.scopes.openContext (some s.root)).1
    ⟨p.text, source⟩
  have hmemory : t.memory = (s.memory.newModule d).2 := (congrArg (fun r => r.2.memory) hnew).symm
  have hscopes : t.scopes = (s.scopes.openContext (some s.root)).2 :=
    (congrArg (fun r => r.2.scopes) hnew).symm
  have href : r = (s.memory.newModule d).1 := (Outcome.ok.inj (congrArg Prod.fst hnew)).symm
  have hd : d.Tame P s.memory.lists.size s.memory.classes.size s.memory.modules.size :=
    { exports := fun _ hp => (by cases hp)
      parent := hs.module
      path := hp }
  have hreach : s.Reaches P t := by
    refine .of_bound hs hsettles ?_ ?_ fun x hx q hq => ?_
    · rw [hmemory]
      exact hs.memory.newModule hd
    · rw [hmemory]
      rfl
    · rw [hscopes] at hx hq
      rcases hadds.values_cases hx with ⟨hold, hvalues⟩ | ⟨hempty, -⟩
      · exact ⟨hold, hvalues ▸ hq⟩
      · rw [hempty] at hq
        cases hq
  refine ⟨r, t, hnew, hreach, hopen, hfresh, fun unit => ⟨?_, ⟨r, rfl⟩, fun q => ?_⟩⟩
  · refine { hreach.tame with
      sound := { hreach.tame.sound with here := hopen }
      module := fun q hq => ?_ }
    cases hq
    show r.index < t.memory.modules.size
    rw [href, hmemory]
    simp [Memory.newModule]
  · show t.memory.inImportChain r q = _
    rw [href, hmemory, hs.memory.inImportChain_newModule hs.module]
    rfl

/-- What was dropped is reclaimed before a module begins. -/
theorem State.Tame.newModule (hs : s.Tame P) {p : Path} (hp : P.Home p) (source : Option String) :
    ∃ s₀ r t, s.Reaches P s₀ ∧
      Classlet.newModule p source s.activation.module s = (.ok r, t) ∧ s₀.Reaches P t ∧
      t.scopes.Open (t.memory.moduleInfo r).context ∧
      (∀ scope ∈ (t.scopes.context (t.memory.moduleInfo r).context).scopes,
        ¬ s₀.scopes.FrameInUse scope) ∧
      ∀ unit, s.Begins P p { t with
        activation := ⟨(t.memory.moduleInfo r).context, unit, moduleScope, some r⟩
        depth := t.depth + 1 } := by
  obtain ⟨s₀, hreclaim, hsheds⟩ := hs.sound.reclaim
  have hreach := State.Reaches.of_sheds hs hsheds
  obtain ⟨r, t, hopen, ht, hcontext, hfresh, hbegins⟩ := hreach.tame.openModule hp source
  refine ⟨s₀, r, t, hreach, ?_, ht, hcontext, hfresh, fun unit =>
    { hbegins unit with chain := fun q => ?_ }⟩
  · rw [newModule_of_reclaim hreclaim, ← hreach.activation]
    exact hopen
  · rw [(hbegins unit).chain, hreach.inChain hs]

/-! ### Exports -/

theorem Bindings.mem_of_mem_erase {α : Type} {name : String} : ∀ {b : Bindings α} {p : String × α},
    p ∈ b.erase name → p ∈ b
  | [], _, hp => by cases hp
  | (n, v) :: rest, p, hp => by
      rw [erase] at hp
      split at hp
      · exact List.mem_cons_of_mem _ hp
      · rcases List.mem_cons.mp hp with rfl | hp
        · exact List.mem_cons_self
        · exact List.mem_cons_of_mem _ (mem_of_mem_erase hp)

theorem BoundWithin.selectExports {lists classes : Nat} {m : Memory} {exports : Bindings Value} :
    ∀ {entries : List Value} {b exported : Bindings Value}, BoundWithin lists classes b →
      BoundWithin lists classes exported → selectExports m b exported entries = .ok exports →
        BoundWithin lists classes exports
  | [], _, _, _, hexported, h => by
      cases h
      exact hexported
  | v :: more, b, exported, hb, hexported, h => by
      unfold Classlet.selectExports at h
      split at h
      case h_1 he => cases he
      case h_3 => cases h
      case h_2 name rest he =>
        cases he
        split at h
        · rename_i v hv
          refine selectExports (fun p hp => ?_) (hexported.insert (hb.get? hv)) h
          exact hb p (Bindings.mem_of_mem_erase hp)
        · cases h

theorem BoundWithin.computeExports {lists classes : Nat} {m : Memory} {b exports : Bindings Value}
    (hb : BoundWithin lists classes b) (h : computeExports m b = .ok exports) :
    BoundWithin lists classes exports := by
  unfold Classlet.computeExports at h
  split at h
  · cases h
    exact hb
  · split at h
    · exact hb.selectExports (fun _ hp => by cases hp) h
    · cases h

/-- The outermost scope of a context that came later binds fitting values only. -/
theorem State.Reaches.baseBindings (h : s.Reaches P t) (hs : s.Tame P) {c : ContextId}
    (hfresh : ∀ scope ∈ (t.scopes.context c).scopes, ¬ s.scopes.FrameInUse scope) :
    BoundWithin t.memory.lists.size t.memory.classes.size (t.scopes.baseBindings c) := by
  intro p hp
  unfold Arena.baseBindings at hp
  split at hp
  · rename_i base hbase
    have hmem := List.mem_of_getLast? hbase
    refine (h.tame.frames base (h.tame.sound.exact.scope_inUse hmem) p hp).resolve_right ?_
    rintro ⟨hglobal, -⟩
    obtain ⟨own, hsettles⟩ := h.settles
    rw [hsettles.global? hs.sound] at hglobal
    exact hfresh base hmem (hs.sound.exact.scope_inUse (List.mem_of_getLast? hglobal))
  · cases hp

namespace Halts

/-! ### Modules -/

theorem runModule (hs : s.Tame P) {p : Path} (hp : P.Home p) (source : Option String)
    {statements : List Statement} (hcode : ∀ u, s.Begins P p u →
      Halts P (fun e => e.execStatements statements) u Completion.FitsIn) :
    Halts P (fun e => runModule e p source statements s.activation.module) s Anything := by
  obtain ⟨s₀, r, t, hs₀, hnew, ht₀, hopen, hfresh, hbegins⟩ := hs.newModule hp source
  have ht := hs₀.trans ht₀
  let activation : Activation :=
    ⟨(t.memory.moduleInfo r).context, (t.memory.moduleInfo r).unit, moduleScope, some r⟩
  let run (e : Engine) : Eval Completion :=
    Classlet.tracing (Eval.withActivation activation (e.execStatements statements))
  let rest (_ : Completion) : Eval ModuleRef := publish r >>= fun _ => Pure.pure r
  have hrun : ∀ m, Classlet.runModule (P.engine m) p source statements s.activation.module s =
      (run (P.engine m) >>= rest) t := by
    intro m
    unfold Classlet.runModule
    rw [bind_apply, hnew]
    rfl
  have hbody : Halts P run t Completion.FitsIn :=
    .tracing (.withActivation ht.tame hopen (P.confined_execStatements statements)
      (hcode _ (hbegins _)))
  have hall : ∃ result n, (∀ m, n ≤ m → (run (P.engine m) >>= rest) t = result) ∧
      Ends P s Anything result := by
    refine changing hs ht hbody (fun m => ⟨[], ?_⟩) fun completion u hu _ => ?_
    · rw [← hrun]
      exact isolated_runModule p source _ (P.confined_execStatements · m) statements s hs.sound
    · have hbound : BoundWithin u.memory.lists.size u.memory.classes.size
          (u.scopes.baseBindings (u.memory.moduleInfo r).context) := by
        obtain ⟨own, hsettles⟩ := hu.settles
        refine (ht₀.trans hu).baseBindings hs₀.tame ?_
        rw [hu.keeps.moduleInfo ((hbegins activation.unit).tame.module r rfl),
          (hsettles.scopes.context _ (.opened hopen)).scopes]
        exact hfresh
      show (∃ c, (publish r >>= fun _ => Pure.pure r) u = _) ∨
        ∃ q memory, (publish r >>= fun _ => Pure.pure r) u = _ ∧ _
      simp only [bind_apply, publish]
      cases hexports : computeExports u.memory
          (u.scopes.baseBindings (u.memory.moduleInfo r).context) with
      | error c => exact .inl ⟨c, rfl⟩
      | ok exports =>
          exact .inr ⟨r, u.memory.setExports r exports, rfl,
            hu.tame.memory.setExports r (hbound.computeExports hexports), le_rfl, le_rfl, trivial⟩
  obtain ⟨result, n, hresult, hends⟩ := hall
  exact ⟨result, n, fun m hm => (hrun m).trans (hresult m hm), hends⟩

theorem evaluateParsed (hs : s.Tame P) {p : Path} (hp : P.Home (Location.canonical p))
    (source : Option String) {statements : List Statement}
    (hcode : ∀ u, s.Begins P (Location.canonical p) u →
      Halts P (fun e => e.execStatements statements) u Completion.FitsIn) :
    Halts P (fun e => evaluateParsed e p source statements s.activation.module) s Anything := by
  refine .bind (runModule hs hp source hcode) fun r t ht _ => ?_
  refine .bind (.modify ht.tame ?_ rfl) fun _ u hu _ => .pure hu.tame trivial
  exact isolated_modify fun _ => rfl

/-- **A text ends**, if accepted code does where it begins. -/
theorem evaluateSource (hs : s.Tame P) {p : Path} (hp : P.Home (Location.canonical p))
    {source : String} (haccepted : P.Accepts source)
    (hcode : ∀ u, s.Begins P (Location.canonical p) u → P.CodeHalts (P.level u)) :
    Halts P (fun e => evaluateSource e p source s.activation.module) s Anything := by
  unfold Classlet.evaluateSource
  cases hparse : parse source with
  | error errors => exact .fail hs _
  | ok statements =>
      exact evaluateParsed hs hp (some source) fun u hu =>
        hcode u hu .module statements (haccepted.allows hparse) u hu.ready

/-! ### Imports -/

/-- A text that is loaded is a text of the program. -/
theorem load (hs : s.Tame P) (p : Path) :
    Halts P (fun e => load e p) s fun source _ => P.texts.find? p = some source := by
  refine .congr (Y := fun _ => Classlet.load (P.engine 0) p) ?_ fun m => ?_
  · unfold Classlet.load
    refine .bind (.modify hs ?_ rfl) fun _ t ht _ => ?_
    · exact isolated_modify fun _ => rfl
    · rw [P.engine_loader, SourceTexts.loader]
      cases hfound : P.texts.find? p with
      | some source => exact .pure ht.tame rfl
      | none => exact .fail ht.tame _
  · simp only [Classlet.load, P.engine_loader]

/-- The running code imports the text at a canonical path. -/
theorem importNew (htexts : ∀ entry ∈ P.texts.entries, P.Accepts entry.2)
    (hbelow : ∀ k < b, P.CodeHalts k) (hs : s.Ready P b) {p : Path}
    (hp : Location.canonical p = p) :
    Halts P (fun e => importNew e p s.activation.module) s Anything := by
  refine .readMemory_bind (.ite (fun _ => .fail hs.tame _) fun hcyclic => ?_)
  have hnew : s.inChain p = false := Bool.eq_false_iff.mpr hcyclic
  refine .bind (load hs.tame p) fun source t ht hsource => ?_
  have hsome : (P.texts.find? p).isSome := by rw [hsource]; rfl
  have haccepted : P.Accepts source := by
    obtain ⟨entry, hentry, rfl⟩ := Option.map_eq_some_iff.mp hsource
    exact htexts entry (List.mem_of_find?_eq_some hentry)
  rw [← ht.activation]
  refine evaluateSource ht.tame (.inr ⟨?_, ?_⟩) haccepted fun u hu => hbelow _ ?_
  · rw [hp, hp]
  · rw [hp]
    exact hsome
  · rw [hp] at hu
    have hready := ht.ready hs
    have hlt := hu.level_lt hsome ((ht.inChain hs.tame p).trans hnew)
    exact hlt.trans_le hready.level

end Halts

/-- Imports that land end, if code ends at all lower levels. -/
theorem Program.importsHalt (htexts : ∀ entry ∈ P.texts.entries, P.Accepts entry.2)
    (hbelow : ∀ k < b, P.CodeHalts k) : P.ImportsHalt b := by
  intro target htarget s hs
  obtain ⟨r, hr⟩ := hs.inside
  have hinfo : P.Home (s.memory.moduleInfo r).path := by
    unfold Memory.moduleInfo
    rw [Array.getElem?_eq_getElem (hs.tame.module r hr)]
    exact (hs.tame.memory.modules _ _ (Array.getElem?_eq_getElem (hs.tame.module r hr))).path
  let p := P.resolve target (s.memory.moduleInfo r).path
  have hp : Location.canonical p = p := htarget _ hinfo
  refine Halts.step (Y := fun e => importModule e target s.activation.module) ?_ fun _ => rfl
  refine .congr (Y := fun e => Eval.read (fun s => s.cached? p) >>= fun kept =>
    kept.elim (importNew e p s.activation.module) Pure.pure) ?_ fun m => ?_
  · refine .bind (.read (Q := Anything) hs.tame trivial) fun kept t ht _ => ?_
    cases kept with
    | some q => exact .pure ht.tame trivial
    | none =>
        rw [← ht.activation]
        exact .importNew htexts hbelow (ht.ready hs) hp
  · have hpath : importPath (P.engine m) target s.activation.module s = (.ok p, s) := by
      unfold importPath
      rw [P.engine_settings, hr]
      rfl
    unfold importModule
    simp only [bind_apply, hpath, Eval.read]
    cases s.cached? p <;> rfl

/-- **Code ends at every level**, if all texts are accepted. -/
theorem Program.allCodeHalts (htexts : ∀ entry ∈ P.texts.entries, P.Accepts entry.2) (b : Nat) :
    P.CodeHalts b := by
  induction b using Nat.strong_induction_on with
  | _ b hbelow => exact P.codeHalts hbelow (P.importsHalt htexts hbelow)

end Classlet
