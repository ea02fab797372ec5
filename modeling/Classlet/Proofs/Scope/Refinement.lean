import Classlet.Proofs.Scope.Correspondence

/-! # Reuse of slots cannot be observed

The same requests are put to the arena of the interpreter and to an archive.  `Session.Refines`
relates the two sessions: the arena holds what is live in the archive, and the names of both
sessions stand for the same things.  Every request that the discipline permits is answered by both
in the same way, and relates the sessions again (`step_refines`).  So whole sessions are answered
in the same way, and without a fault (`run_refines`). -/

namespace Classlet.Session

variable {slot : ContextId → ContextId} {place : ScopeId → ScopeId} {s : Session Store}
  {t : Session Archive}

/-- The names of two sessions stand for the same things. -/
structure Matches (slot : ContextId → ContextId) (place : ScopeId → ScopeId) (s : Session Store)
    (t : Session Archive) : Prop where
  tidy : t.Tidy
  holds : Holds slot place t s.state.scopes
  memory : s.state.memory = t.state.memory
  dropped : s.state.scopes.dropped = t.queued.map fun n => slot (t.closureAt n)
  contexts : s.contexts = t.contexts.map slot
  closures : s.closures = t.closures.map slot
  scopes : s.scopes = t.scopes.map place
  opened : s.opened = t.opened
  held : s.held = t.held
  queued : s.queued = t.queued

/-- An arena and an archive are in use by clients that cannot tell them apart. -/
def Refines (s : Session Store) (t : Session Archive) : Prop := ∃ slot place, Matches slot place s t

/-- A request is answered in the same way by both. -/
def Agree (s : Session Store) (t : Session Archive) (r : Request) : Prop :=
  ∃ answer s' t', s.step Store.environment r = .ok (answer, s') ∧
    t.step Archive.environment r = .ok (answer, t') ∧ s'.Refines t'

theorem Refines.start (m : Memory) :
    Refines { state := { memory := m } } { state := { memory := m } } := by
  have hdead : ∀ c, ¬ Live { state := { memory := m } } c := fun c hc =>
    absurd ((Tidy.start m).lt_of_live hc) (Nat.not_lt_zero _)
  refine ⟨id, id, ?_⟩
  constructor
  case tidy => exact .start m
  case holds =>
    constructor
    case exact => exact Arena.Exact.empty
    case onto => exact fun x hx => absurd hx.1 (Nat.not_lt_zero _)
    case slot_inj => exact fun c _ hc => absurd hc (hdead c)
    case place_inj => exact fun c _ hc => absurd hc (hdead c)
    all_goals exact fun c hc => absurd hc (hdead c)
  all_goals rfl

namespace Matches

theorem getD_map_of_lt {l : List ContextId} {n : Nat} (h : n < l.length) :
    (l.map slot).getD n ⟨0⟩ = slot (l.getD n ⟨0⟩) := by
  rw [List.getD_eq_getElem _ _ (by simpa using h), List.getD_eq_getElem _ _ h, List.getElem_map]

theorem openedAt_eq (h : Matches slot place s t) {n : Nat} (hn : n ∈ t.opened) :
    s.openedAt n = slot (t.openedAt n) := by
  rw [openedAt, h.contexts]
  exact getD_map_of_lt (h.tidy.opened_lt n hn)

theorem closureAt_eq (h : Matches slot place s t) {n : Nat} (hn : n ∈ t.queued ++ t.held) :
    s.closureAt n = slot (t.closureAt n) := by
  rw [closureAt, h.closures]
  exact getD_map_of_lt (h.tidy.held_lt n hn)

theorem scopeAt_eq (h : Matches slot place s t) {n : Nat} (hn : n < t.scopes.length) :
    s.scopeAt n = place (t.scopeAt n) := by
  rw [scopeAt, h.scopes, scopeAt, List.getD_eq_getElem _ _ (by simpa using hn),
    List.getD_eq_getElem _ _ hn, List.getElem_map]

theorem context_eq (h : Matches slot place s t) {x : Handle} (hx : t.Usable x) :
    s.context x = slot (t.context x) := by
  cases x with
  | opened n => exact h.openedAt_eq hx
  | closure n => exact h.closureAt_eq (List.mem_append_right _ hx)

/-- The slot that is chosen for a new context does not matter for the names that there are. -/
theorem names_eq (h : Matches slot place s t) (x : ContextId) :
    s.contexts = t.contexts.map (Function.update slot ⟨t.state.contexts.size⟩ x) ∧
      s.closures = t.closures.map (Function.update slot ⟨t.state.contexts.size⟩ x) := by
  rw [h.contexts, h.closures]
  exact ⟨List.map_congr_left fun c hc => (Holds.update_of_lt (h.tidy.context_lt c hc)).symm,
    List.map_congr_left fun c hc => (Holds.update_of_lt (h.tidy.closure_lt c hc)).symm⟩

/-! ### Contexts and closures -/

theorem newContext (h : Matches slot place s t) {parent : Option Handle}
    (hp : ∀ x, parent = some x → t.Usable x) : Agree s t (.newContext parent) := by
  obtain ⟨a, ha, hold, hd⟩ := h.holds.reclaim h.tidy h.dropped
  have hparent : parent.map s.context = (parent.map t.context).map slot := by
    cases parent with
    | none => rfl
    | some x => exact congrArg some (h.context_eq (hp x rfl))
  have hlive : ∀ p, parent.map t.context = some p → t.settled.Live p := by
    intro p he
    obtain ⟨x, hx, rfl⟩ := Option.map_eq_some_iff.mp he
    exact (hp x hx).live_settled
  have hlt : ∀ p, parent.map t.context = some p → p.index < t.state.contexts.size :=
    fun p he => h.tidy.lt_of_live (live_of_settled (hlive p he))
  obtain ⟨place', hplace, hdropped, hopen⟩ := hold.openContext h.tidy hlive
  obtain ⟨hcontexts, hclosures⟩ := h.names_eq (a.openContext ((parent.map t.context).map slot)).1
  have hstep : s.step Store.environment (.newContext parent) = .ok (.done,
      s.addContext (a.openContext ((parent.map t.context).map slot)).1
        { s.state with scopes := (a.openContext ((parent.map t.context).map slot)).2 }) := by
    simp only [step, Store.environment, Arena.newContext, ha, hparent]
    rfl
  refine ⟨_, _, _, hstep, rfl, Function.update slot ⟨t.state.contexts.size⟩
    (a.openContext ((parent.map t.context).map slot)).1, place', ?_⟩
  constructor
  case tidy => exact h.tidy.addContext hlt
  case holds => exact hopen
  case memory => exact h.memory
  case dropped => exact hdropped.trans hd
  case contexts =>
    show s.contexts ++ [_] = List.map _ (t.contexts ++ [_])
    rw [List.map_append, List.map_singleton, Function.update_self, ← hcontexts]
  case closures => exact hclosures
  case scopes => exact h.scopes.trans (List.map_congr_left fun r hr => (hplace r hr).symm)
  case opened => exact congrArg₂ List.cons (by rw [h.contexts, List.length_map]) h.opened
  case held => exact h.held
  case queued => rfl

theorem capture (h : Matches slot place s t) {x : Handle} (hx : t.Usable x) :
    Agree s t (.capture x) := by
  obtain ⟨a, ha, hold, hd⟩ := h.holds.reclaim h.tidy h.dropped
  obtain ⟨hdropped, hfreeze⟩ := hold.freeze h.tidy hx.live_settled
  obtain ⟨hcontexts, hclosures⟩ := h.names_eq (a.freeze (slot (t.context x))).1
  have hstep : s.step Store.environment (.capture x) = .ok (.done,
      s.addClosure (a.freeze (slot (t.context x))).1
        { s.state with scopes := (a.freeze (slot (t.context x))).2 }) := by
    simp only [step, Store.environment, Arena.capture, ha, h.context_eq hx]
    rfl
  refine ⟨_, _, _, hstep, rfl, Function.update slot ⟨t.state.contexts.size⟩
    (a.freeze (slot (t.context x))).1, place, ?_⟩
  constructor
  case tidy => exact h.tidy.addClosure (h.tidy.context_lt_of_usable hx)
  case holds => exact hfreeze
  case memory => exact h.memory
  case dropped => exact hdropped.trans hd
  case contexts => exact hcontexts
  case closures =>
    show s.closures ++ [_] = List.map _ (t.closures ++ [_])
    rw [List.map_append, List.map_singleton, Function.update_self, ← hclosures]
  case scopes => exact h.scopes
  case opened => exact h.opened
  case held => exact congrArg₂ List.cons (by rw [h.closures, List.length_map]) h.held
  case queued => rfl

theorem releaseContext (h : Matches slot place s t) {n : Nat}
    (hp : t.Permits (.releaseContext n)) : Agree s t (.releaseContext n) := by
  obtain ⟨hn, hone, hchild⟩ := hp
  obtain ⟨b, hb, hold, hd⟩ := h.holds.releaseContext h.tidy hn hone hchild
  have hstep : s.step Store.environment (.releaseContext n) =
      .ok (.done, s.closeContext n { s.state with scopes := b }) := by
    simp only [step, Store.environment, h.openedAt_eq hn, hb]
    rfl
  refine ⟨_, _, _, hstep, rfl, slot, place, ?_⟩
  exact { h with
    tidy := h.tidy.closeContext n
    holds := hold
    dropped := hd.trans h.dropped
    opened := congrArg (List.erase · n) h.opened }

theorem dropClosure (h : Matches slot place s t) {n : Nat} (hn : n ∈ t.held) :
    Agree s t (.dropClosure n) := by
  have hstep : s.step Store.environment (.dropClosure n) = .ok (.done, s.queueClosure n
      { s.state with scopes := s.state.scopes.dropClosure (slot (t.closureAt n)) }) := by
    simp only [step, Store.environment, h.closureAt_eq (List.mem_append_right _ hn)]
  refine ⟨_, _, _, hstep, rfl, slot, place, ?_⟩
  exact { h with
    tidy := h.tidy.queueClosure hn
    holds := h.holds.queueClosure hn
    dropped := congrArg (slot (t.closureAt n) :: ·) h.dropped
    held := congrArg (List.erase · n) h.held
    queued := congrArg (n :: ·) h.queued }

/-! ### Scopes -/

theorem pushScope (h : Matches slot place s t) {n : Nat} (hn : n ∈ t.opened) :
    Agree s t (.pushScope n) := by
  have hst : t.Stacked (t.openedAt n) := ⟨n, hn, rfl⟩
  have hstep : s.step Store.environment (.pushScope n) = .ok (.done,
      s.addScope (s.state.scopes.pushScope (slot (t.openedAt n))).1
        { s.state with scopes := (s.state.scopes.pushScope (slot (t.openedAt n))).2 }) := by
    simp only [step, Store.environment, h.openedAt_eq hn]
  refine ⟨_, _, _, hstep, rfl, slot, Function.update place ⟨t.state.frames.size⟩
    (s.state.scopes.pushScope (slot (t.openedAt n))).1, ?_⟩
  refine { h with
    tidy := h.tidy.pushScope (h.tidy.openedAt_lt hn)
    holds := h.holds.pushScope h.tidy (.opened hn) hst
    dropped := Arena.dropped_pushScope.trans h.dropped
    scopes := ?_ }
  show s.scopes ++ [_] = List.map _ (t.scopes ++ [⟨t.state.frames.size⟩])
  rw [List.map_append, List.map_singleton, Function.update_self, h.scopes]
  exact congrArg (· ++ _)
    (List.map_congr_left fun r hr => (Holds.update_scope_of_lt (h.tidy.scope_lt r hr)).symm)

theorem popScope (h : Matches slot place s t) {n k : Nat} (hp : t.Permits (.popScope n k)) :
    Agree s t (.popScope n k) := by
  obtain ⟨hn, hk, htop⟩ := hp
  obtain ⟨rest, hrest⟩ := List.head?_eq_some_iff.mp htop
  have hl : t.Live (t.openedAt n) := .opened hn
  have hscopes : (s.state.scopes.context (slot (t.openedAt n))).scopes =
      place (t.scopeAt k) :: rest.map place := by
    rw [h.holds.scopes _ hl, hrest, List.map_cons]
  have hstep : s.step Store.environment (.popScope n k) = .ok (.done, { s with state :=
      { s.state with scopes :=
        s.state.scopes.dropScope (slot (t.openedAt n)) (place (t.scopeAt k)) } }) := by
    simp only [step, Store.environment, Arena.popScope, h.openedAt_eq hn, h.scopeAt_eq hk,
      Arena.popFault?_eq_none hscopes]
    rfl
  have hstep' : t.step Archive.environment (.popScope n k) =
      .ok (.done, { t with state := t.state.setScopes (t.openedAt n) rest }) := by
    simp only [step, Archive.environment, Archive.popScope, hrest, if_true]
    rfl
  refine ⟨_, _, _, hstep, hstep', slot, place, ?_⟩
  exact { h with
    tidy := h.tidy.popScope (h.tidy.openedAt_lt hn) hrest (scopeAt_mem hk)
    holds := h.holds.popScope h.tidy hl ⟨n, hn, rfl⟩ hrest
    dropped := Arena.dropped_dropScope.trans h.dropped }

/-! ### Variables -/

/-- A request that binds a name where both environments have a place for it, or the same cause
against it. -/
theorem bound (h : Matches slot place s t) {c : ContextId} (hc : t.Live c) (name : String)
    (v : Value) (m : Memory) {p : Except BindFault ScopeId}
    (hmem : ∀ r, p = .ok r → r ∈ (t.state.chain c).scopes)
    (hfault : ∀ f, p ≠ .error (.unbalanced f)) :
    ∃ answer s' t',
      s.bound ((p.map place).map fun r => { memory := m, scopes := s.state.scopes.bind r name v }) =
        .ok (answer, s') ∧
      t.bound (p.map fun r => { t.state.bind r name v with memory := m }) = .ok (answer, t') ∧
      s'.Refines t' := by
  cases p with
  | error e =>
      cases e with
      | cause k => exact ⟨.failed k, s, t, rfl, rfl, slot, place, h⟩
      | unbalanced f => exact absurd rfl (hfault f)
  | ok r =>
      have hr := hmem r rfl
      refine ⟨.done, _, _, rfl, rfl, slot, place, ?_⟩
      exact { h with
        tidy := h.tidy.of_state rfl (by simp [Archive.bind]) (fun _ => rfl) (fun _ _ hs => hs)
          h.tidy.base
        holds := h.holds.bind h.tidy hc hr name v m
        memory := rfl
        dropped := h.dropped }

theorem assign (h : Matches slot place s t) {x : Handle} (hx : t.Usable x) (name : String)
    (v : Value) : Agree s t (.assign x name v) := by
  obtain ⟨heq, hmem, hfault⟩ := h.holds.place_eq h.tidy h.memory name v hx.live
  unfold Agree
  simp only [step, Store.environment, Archive.environment, Store.assign, Archive.assign,
    Store.bindCopy, h.context_eq hx, heq, h.memory]
  exact h.bound hx.live name (t.state.memory.copyForBinding v).1
    (t.state.memory.copyForBinding v).2 hmem hfault

theorem define (h : Matches slot place s t) {x : Handle} (hx : t.Usable x) (name : String)
    (v : Value) : Agree s t (.define x name v) := by
  obtain ⟨heq, hmem, hfault⟩ := h.holds.newPlace_eq h.tidy name hx.live
  unfold Agree
  simp only [step, Store.environment, Archive.environment, Store.define, Archive.define,
    Store.bindCopy, h.context_eq hx, heq, h.memory]
  exact h.bound hx.live name (t.state.memory.copyForBinding v).1
    (t.state.memory.copyForBinding v).2 hmem hfault

theorem defineShared (h : Matches slot place s t) {x : Handle} (hx : t.Usable x) (name : String)
    (v : Value) : Agree s t (.defineShared x name v) := by
  obtain ⟨heq, hmem, hfault⟩ := h.holds.newPlace_eq h.tidy name hx.live
  unfold Agree
  simp only [step, Store.environment, Archive.environment, Store.defineShared,
    Archive.defineShared, Store.bindShared, h.context_eq hx, heq, h.memory]
  exact h.bound hx.live name v t.state.memory hmem hfault

theorem get (h : Matches slot place s t) {x : Handle} (hx : t.Usable x) (name : String) :
    Agree s t (.get x name) := by
  have hget := h.holds.get?_eq h.tidy name hx.live
  have hlookup : s.state.lookup (s.context x) name = t.state.lookup (t.context x) name := by
    unfold Store.lookup Archive.lookup
    rw [h.context_eq hx]
    cases hfound : t.state.getFrom? name ((t.context x).index + 1) (t.context x) with
    | some v => simp only [hget, hfound]
    | none => simp only [hget, hfound]
  refine ⟨_, s, t, ?_, rfl, slot, place, h⟩
  simp only [step, Store.environment, Archive.environment, hlookup]

theorem baseBindings (h : Matches slot place s t) {x : Handle} (hx : t.Usable x) :
    Agree s t (.baseBindings x) := by
  refine ⟨_, s, t, ?_, rfl, slot, place, h⟩
  simp only [step, Store.environment, Archive.environment, h.context_eq hx,
    h.holds.baseBindings_eq hx.live]

theorem scopeCount (h : Matches slot place s t) {x : Handle} (hx : t.Usable x) :
    Agree s t (.scopeCount x) := by
  refine ⟨_, s, t, ?_, rfl, slot, place, h⟩
  simp only [step, Store.environment, Archive.environment, h.context_eq hx,
    h.holds.scopeCount_eq hx.live]

end Matches

/-! ### Sessions -/

/-- **One request.**  What the discipline permits is answered in the same way by both. -/
theorem step_refines (h : s.Refines t) {r : Request} (hr : t.Permits r) : Agree s t r := by
  obtain ⟨slot, place, h⟩ := h
  cases r with
  | newContext parent => exact h.newContext hr
  | releaseContext n => exact h.releaseContext hr
  | pushScope n => exact h.pushScope hr
  | popScope n k => exact h.popScope hr
  | capture x => exact h.capture hr
  | dropClosure n => exact h.dropClosure hr
  | assign x name v => exact h.assign hr name v
  | define x name v => exact h.define hr name v
  | defineShared x name v => exact h.defineShared hr name v
  | get x name => exact h.get hr name
  | baseBindings x => exact h.baseBindings hr
  | scopeCount x => exact h.scopeCount hr

/-- **A whole session.**  Requests that keep the discipline are answered in the same way by both,
and without a fault. -/
theorem run_refines : ∀ {rs : List Request} {s : Session Store} {t : Session Archive},
    s.Refines t → t.Disciplined rs → ∃ answers s' t',
      s.run Store.environment rs = .ok (answers, s') ∧
      t.run Archive.environment rs = .ok (answers, t') ∧ s'.Refines t'
  | [], s, t, h, _ => ⟨[], s, t, rfl, rfl, h⟩
  | r :: rs, s, t, h, hd => by
      obtain ⟨answer, s₁, t₁, hs, ht, h₁⟩ := step_refines h hd.1
      obtain ⟨answers, s₂, t₂, hs', ht', h₂⟩ := run_refines h₁ (hd.2 answer t₁ ht)
      refine ⟨answer :: answers, s₂, t₂, ?_, ?_, h₂⟩
      · rw [run, hs]
        simp only [hs']
        rfl
      · rw [run, ht]
        simp only [ht']
        rfl

/-- **Reuse of slots cannot be observed.**  A client that keeps the discipline gets the answers of
an environment that gives nothing up. -/
theorem answers_eq_archive (m : Memory) {rs : List Request}
    (hd : Disciplined { state := { memory := m } } rs) :
    ∃ answers, (run Store.environment { state := { memory := m } } rs).map Prod.fst = .ok answers ∧
      (run Archive.environment { state := { memory := m } } rs).map Prod.fst = .ok answers := by
  obtain ⟨answers, s, t, hs, ht, -⟩ := run_refines (Refines.start m) hd
  refine ⟨answers, ?_, ?_⟩
  · rw [hs]
    rfl
  · rw [ht]
    rfl

theorem Disciplined.cons {t' : Session Archive} {r : Request} {rs : List Request} {answer : Answer}
    (hp : t.Permits r) (ht : t.step Archive.environment r = .ok (answer, t'))
    (hd : t'.Disciplined rs) : t.Disciplined (r :: rs) := by
  refine ⟨hp, fun answer' s' hs => ?_⟩
  rw [ht] at hs
  cases hs
  exact hd

/-- A closure outlives the scope it was made in, and then the slots of both are used again. -/
def survivor : List Request :=
  [.newContext none, .pushScope 0, .define (.opened 0) "x" (.bool true), .capture (.opened 0),
    .popScope 0 0, .newContext (some (.closure 0)), .get (.opened 1) "x", .dropClosure 0,
    .releaseContext 1, .newContext none, .get (.opened 0) "x"]

theorem survivor_disciplined : Disciplined { state := {} } survivor := by
  refine .cons (fun _ h => by cases h) rfl ?_
  refine .cons List.mem_cons_self rfl ?_
  refine .cons List.mem_cons_self rfl ?_
  refine .cons List.mem_cons_self rfl ?_
  refine .cons ⟨List.mem_cons_self, Nat.zero_lt_one, rfl⟩ rfl ?_
  refine .cons (fun _ h => by cases h; exact List.mem_cons_self) rfl ?_
  refine .cons List.mem_cons_self rfl ?_
  refine .cons List.mem_cons_self rfl ?_
  refine .cons ⟨List.mem_cons_self, rfl, fun c _ => ?_⟩ rfl ?_
  · obtain ⟨i⟩ := c
    match i with
    | 0 | 1 | 2 => decide
    | n + 3 => exact nofun
  refine .cons (fun _ h => by cases h) rfl ?_
  exact .cons (List.mem_cons_of_mem _ List.mem_cons_self) rfl trivial

theorem answers_eq_archive_survivor :
    ∃ answers, (run Store.environment { state := {} } survivor).map Prod.fst = .ok answers ∧
      (run Archive.environment { state := {} } survivor).map Prod.fst = .ok answers :=
  answers_eq_archive {} survivor_disciplined

example : (run Store.environment { state := {} } survivor).map Prod.fst =
    .ok [.done, .done, .done, .done, .done, .done, .value (.bool true), .done, .done, .done,
      .failed (.undefinedName "x")] := by
  rfl

end Classlet.Session
