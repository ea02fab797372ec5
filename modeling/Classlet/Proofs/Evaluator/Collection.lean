import Classlet.Proofs.Evaluator.Sound

/-! # Collecting what is gone

When the program lets go of functions their closures are dropped, and when closures are reclaimed
contexts and frames are freed.  All of it only gives things up (`State.Sheds`): the scopes stay in
order, and what the program can still get at is as it was. -/

namespace Classlet

open Arena (Exact Extends Survives)

namespace State

variable {s s' : State}

/-! ### What giving up leaves alone -/

/-- Only scopes have changed, what is gone, and the schedule. -/
structure Trims (s s' : State) : Prop where
  memory : s'.memory = s.memory
  root : s'.root = s.root
  cache : s'.cache = s.cache
  activation : s'.activation = s.activation
  depth : s'.depth = s.depth
  lastTrace : s'.lastTrace = s.lastTrace
  output : s'.output = s.output
  loads : s'.loads = s.loads

namespace Trims

theorem refl (s : State) : s.Trims s := ⟨rfl, rfl, rfl, rfl, rfl, rfl, rfl, rfl⟩

theorem of_scopes (s : State) (scopes : Arena Value) (gone : List FunctionRef)
    (schedule : List (List FunctionRef)) :
    s.Trims { s with scopes := scopes, gone := gone, schedule := schedule } :=
  ⟨rfl, rfl, rfl, rfl, rfl, rfl, rfl, rfl⟩

theorem trans {t : State} (h₁ : s.Trims s') (h₂ : s'.Trims t) : s.Trims t where
  memory := h₂.memory.trans h₁.memory
  root := h₂.root.trans h₁.root
  cache := h₂.cache.trans h₁.cache
  activation := h₂.activation.trans h₁.activation
  depth := h₂.depth.trans h₁.depth
  lastTrace := h₂.lastTrace.trans h₁.lastTrace
  output := h₂.output.trans h₁.output
  loads := h₂.loads.trans h₁.loads

end Trims

theorem trims_letGo (s : State) (r : FunctionRef) : s.Trims (s.letGo r) := by
  unfold letGo
  split
  · split
    · exact .refl s
    · exact .of_scopes s _ _ _
  · exact .refl s

theorem trims_foldl_letGo : ∀ (rs : List FunctionRef) (s : State), s.Trims (rs.foldl letGo s)
  | [], s => .refl s
  | r :: rs, s => (s.trims_letGo r).trans (trims_foldl_letGo rs (s.letGo r))

theorem trims_lettingGo (s : State) : s.Trims s.lettingGo := by
  unfold lettingGo
  split
  · exact .refl s
  · exact (Trims.of_scopes s _ _ _).trans (trims_foldl_letGo _ _)

theorem trims_reclaimFrom : ∀ (schedule : List (List FunctionRef)) {s s' : State},
    reclaimFrom schedule s = .ok s' → s.Trims s'
  | [], s, s', h => by
      unfold reclaimFrom at h
      cases hscopes : s.scopes.reclaim with
      | error fault =>
          rw [hscopes] at h
          cases h
      | ok scopes =>
          rw [hscopes] at h
          cases h
          exact .of_scopes s _ _ _
  | now :: later, s, s', h => by
      unfold reclaimFrom at h
      split at h
      · cases h
        exact .of_scopes s _ _ _
      · rename_i c rest _
        have hgo := (Trims.of_scopes s { s.scopes with dropped := rest } s.gone s.schedule).trans
          (trims_foldl_letGo now _)
        dsimp only at h
        split at h
        · exact (hgo.trans (.of_scopes _ _ _ _)).trans (trims_reclaimFrom later h)
        · cases h

theorem trims_reclaim (h : s.reclaim = .ok s') : s.Trims s' :=
  s.trims_lettingGo.trans (trims_reclaimFrom _ h)

theorem trims_dropScope (s : State) (c : ContextId) (scope : ScopeId) :
    s.Trims (s.dropScope c scope) :=
  s.trims_lettingGo.trans (.of_scopes _ _ _ _)

theorem trims_releaseContext {c : ContextId} (h : s.releaseContext c = .ok s') : s.Trims s' := by
  unfold releaseContext at h
  dsimp only at h
  cases hscopes : s.lettingGo.scopes.releaseContext c s.lettingGo.memory.closure? with
  | error fault =>
      rw [hscopes] at h
      cases h
  | ok scopes =>
      rw [hscopes] at h
      cases h
      exact s.trims_lettingGo.trans (.of_scopes _ _ _ _)

/-- Reclaiming succeeds or finds a fault, and leaves alone all but scopes and what is gone. -/
theorem reclaim_cases (s : State) : (∃ t, s.Trims t ∧ Eval.reclaim s = (.ok (), t)) ∨
    ∃ fault, Eval.reclaim s = (.stopped (.unbalanced fault), s) := by
  unfold Eval.reclaim
  split
  · rename_i t ht
    exact .inl ⟨t, trims_reclaim ht, rfl⟩
  · exact .inr ⟨_, rfl⟩

/-- Where nothing is dropped and nothing will be, there is nothing to reclaim. -/
theorem reclaim_of_idle (hschedule : s.schedule = []) (hdropped : s.scopes.dropped = []) :
    Eval.reclaim s = (.ok (), s) := by
  obtain ⟨⟨memory, ⟨frames, freeFrames, contexts, freeContexts, dropped⟩⟩, root, cache, activation,
    depth, lastTrace, output, loads, gone, schedule⟩ := s
  obtain rfl : schedule = [] := hschedule
  obtain rfl : dropped = [] := hdropped
  rfl

/-! ### The paths that were loaded do not matter -/

section loads
variable (l : Array Path)

theorem letGo_loads (s : State) (r : FunctionRef) :
    letGo { s with loads := l } r = { s.letGo r with loads := l } := by
  unfold letGo
  dsimp only
  split
  · split <;> rfl
  · rfl

theorem foldl_letGo_loads : ∀ (rs : List FunctionRef) (s : State),
    rs.foldl letGo { s with loads := l } = { rs.foldl letGo s with loads := l }
  | [], _ => rfl
  | r :: rs, s => by
      rw [List.foldl_cons, List.foldl_cons, letGo_loads, foldl_letGo_loads rs]

theorem lettingGo_loads (s : State) :
    lettingGo { s with loads := l } = { s.lettingGo with loads := l } := by
  unfold lettingGo
  dsimp only
  split
  · rfl
  · rename_i now later _
    exact foldl_letGo_loads l now { s with schedule := later }

theorem reclaimFrom_loads : ∀ (schedule : List (List FunctionRef)) (s : State),
    reclaimFrom schedule { s with loads := l } =
      (reclaimFrom schedule s).map fun t => { t with loads := l }
  | [], s => by
      unfold reclaimFrom
      cases s.scopes.reclaim <;> rfl
  | now :: later, s => by
      unfold reclaimFrom
      dsimp only
      split
      · rfl
      · rename_i c rest _
        have hgo := foldl_letGo_loads l now { s with scopes := { s.scopes with dropped := rest } }
        dsimp only at hgo
        rw [hgo]
        dsimp only
        generalize now.foldl letGo { s with scopes := { s.scopes with dropped := rest } } = t
        cases t.scopes.release c t.memory.closure? with
        | ok scopes => exact reclaimFrom_loads later { t with scopes := scopes }
        | error fault => rfl

theorem reclaim_loads {t : State} (h : Eval.reclaim s = (.ok (), t)) :
    Eval.reclaim { s with loads := l } = (.ok (), { t with loads := l }) := by
  have hloads : reclaim { s with loads := l } = s.reclaim.map fun t => { t with loads := l } := by
    unfold reclaim
    rw [lettingGo_loads]
    exact reclaimFrom_loads l _ _
  unfold Eval.reclaim at h ⊢
  rw [hloads]
  split at h
  · rename_i ht
    rw [ht]
    cases h
    rfl
  · cases h

end loads

/-! ### Letting go -/

/-- A function is not gone, and is not let go of at any time of the schedule. -/
def Spares (s : State) (r : FunctionRef) : Prop := r ∉ s.gone ∧ ∀ now ∈ s.schedule, r ∉ now

/-- Some of the functions in `now` are let go of: the contexts in `new` are dropped, and no longer
held. -/
structure LetsGo (s : State) (now : List FunctionRef) (new : List ContextId)
    (gone : List FunctionRef) : Prop where
  perm : (new ++ s.memory.held gone).Perm s.held
  grows : ∀ r ∈ s.gone, r ∈ gone
  only : ∀ r ∈ gone, r ∈ s.gone ∨ r ∈ now
  gone_lt : (∀ r ∈ s.gone, r.index < s.memory.functions.size) →
    ∀ r ∈ gone, r.index < s.memory.functions.size

/-- A state in which functions have been let go of. -/
def without (s : State) (new : List ContextId) (gone : List FunctionRef) : State :=
  { s with gone := gone, scopes := { s.scopes with dropped := new ++ s.scopes.dropped } }

theorem letGo_spec (s : State) (r : FunctionRef) :
    ∃ new gone, s.letGo r = s.without new gone ∧ s.LetsGo [r] new gone := by
  have hnone : ∃ new gone, s = s.without new gone ∧ s.LetsGo [r] new gone :=
    ⟨[], s.gone, rfl, .refl _, fun _ h => h, fun _ h => .inl h, fun h => h⟩
  unfold letGo
  cases hf : s.memory.function? r with
  | none => exact hnone
  | some f =>
      dsimp only
      split
      · exact hnone
      · rename_i hgone
        rw [List.contains_iff_mem] at hgone
        refine ⟨[f.closure], r :: s.gone, rfl, (Memory.held_perm hf hgone).symm,
          fun _ => List.mem_cons_of_mem r,
          fun _ hq => (List.mem_cons.mp hq).symm.imp_right List.mem_singleton.mpr,
          fun hlt q hq => ?_⟩
        rcases List.mem_cons.mp hq with rfl | hq
        · exact (Array.getElem?_eq_some_iff.mp hf).1
        · exact hlt q hq

theorem foldl_letGo_spec : ∀ (rs : List FunctionRef) (s : State),
    ∃ new gone, rs.foldl letGo s = s.without new gone ∧ s.LetsGo rs new gone
  | [], s => ⟨[], s.gone, rfl, .refl _, fun _ h => h, fun _ h => .inl h, fun h => h⟩
  | r :: rs, s => by
      obtain ⟨new₁, gone₁, h₁, hgo₁⟩ := s.letGo_spec r
      obtain ⟨new₂, gone₂, h₂, hgo₂⟩ := foldl_letGo_spec rs (s.letGo r)
      rw [h₁] at h₂ hgo₂
      refine ⟨new₂ ++ new₁, gone₂, ?_, ?_, fun q hq => hgo₂.grows q (hgo₁.grows q hq),
        fun q hq => ?_, fun hlt => hgo₂.gone_lt (hgo₁.gone_lt hlt)⟩
      · rw [List.foldl_cons, h₁, h₂]
        simp only [without, List.append_assoc]
      · have hperm : (new₂ ++ s.memory.held gone₂).Perm (s.memory.held gone₁) := hgo₂.perm
        rw [List.append_assoc]
        exact ((List.perm_append_comm_assoc _ _ _).trans (hperm.append_left new₁)).trans hgo₁.perm
      · rcases hgo₂.only q hq with hq | hq
        · exact (hgo₁.only q hq).imp_right fun hq => by simp_all
        · exact .inr (List.mem_cons_of_mem r hq)

/-! ### What is given up -/

/-- Between `s` and `s'` functions were let go of, and contexts and frames were freed or emptied
that the program cannot get at. -/
structure Sheds (s s' : State) : Prop where
  trims : s.Trims s'
  gone : ∀ r ∈ s.gone, r ∈ s'.gone
  spares : ∀ r, s.Spares r → s'.Spares r
  sound : s'.Sound
  scopes : Extends [] s'.held s.scopes s'.scopes
  inUse : ∀ c, s'.scopes.InUse c → s.scopes.InUse c
  context : ∀ c, s'.scopes.InUse c → (s'.scopes.context c).Agrees (s.scopes.context c)
  frame : ∀ scope, s'.scopes.FrameInUse scope → s.scopes.FrameInUse scope ∧
    ((s'.scopes.frame scope).values = (s.scopes.frame scope).values ∨
      (s'.scopes.frame scope).values = [])

namespace Sheds

/-- Dropping closures by itself frees nothing. -/
theorem survives_dropped (a : Arena Value) (dropped : List ContextId) :
    Survives (fun _ => none) [] { a with dropped := dropped } { a with dropped := dropped } :=
  .refl _

theorem of_survives (hs : s.Sound) {closure? : Value → Option ContextId}
    {dropped : List ContextId}
    (htrims : s.Trims s') (hgone : ∀ r ∈ s.gone, r ∈ s'.gone)
    (hspares : ∀ r, s.Spares r → s'.Spares r)
    (hlt : ∀ r ∈ s'.gone, r.index < s.memory.functions.size)
    (hexact : s'.scopes.Exact { mentions := s'.held ++ s'.scopes.dropped })
    (hsurvives : Survives closure? [] { s.scopes with dropped := dropped } s'.scopes)
    (hmentions : ∀ c ∈ s'.held ++ s'.scopes.dropped, c ∈ s.held ++ s.scopes.dropped) :
    s.Sheds s' where
  trims := htrims
  gone := hgone
  spares := hspares
  sound := by
    refine hs.survives hexact hsurvives hmentions htrims.root htrims.activation List.not_mem_nil
      List.not_mem_nil ?_
    rw [htrims.memory]
    exact hlt
  scopes := by
    have hheld : ∀ c ∈ s'.held, s.scopes.InUse c := fun c hc =>
      hs.exact.mention_inUse c (hmentions c (List.mem_append_left _ hc))
    have hbase := hs.exact.with_dropped dropped
    exact .of_dropped ((Extends.refl [] hbase hheld).survives (k := {}) hsurvives
      (fun _ _ => List.not_mem_nil) hexact fun _ hc => hc)
  inUse := hsurvives.inUse
  context := hsurvives.context
  frame scope hscope := by
    obtain ⟨huse, hvalues | hempty⟩ := hsurvives.frame scope hscope
    · exact ⟨huse, .inl hvalues⟩
    · exact ⟨huse, .inr hempty.1⟩

theorem refl (hs : s.Sound) : s.Sheds s :=
  .of_survives hs (.refl s) (fun _ h => h) (fun _ h => h) hs.gone_lt hs.exact
    (survives_dropped s.scopes s.scopes.dropped) fun _ h => h

theorem trans {t : State} (h₁ : s.Sheds s') (h₂ : s'.Sheds t) : s.Sheds t := by
  refine ⟨h₁.trims.trans h₂.trims, fun r hr => h₂.gone r (h₁.gone r hr),
    fun r hr => h₂.spares r (h₁.spares r hr), h₂.sound, ?_,
    fun c hc => h₁.inUse c (h₂.inUse c hc),
    fun c hc => (h₂.context c hc).trans (h₁.context c (h₂.inUse c hc)), fun scope hscope => ?_⟩
  · refine (h₁.scopes.fewer fun c hc => ?_).trans h₂.scopes
    rw [held, h₂.trims.memory] at hc
    exact ((Memory.Keeps.refl s'.memory).held h₂.gone hc).1
  · obtain ⟨huse, hvalues | hempty⟩ := h₂.frame scope hscope
    · obtain ⟨huse', hvalues'⟩ := h₁.frame scope huse
      rw [hvalues]
      exact ⟨huse', hvalues'⟩
    · exact ⟨(h₁.frame scope huse).1, .inr hempty⟩

end Sheds

/-- What is not gone and not let go of at any time of a schedule is spared when its first time has
come. -/
theorem LetsGo.spares {now : List FunctionRef} {later : List (List FunctionRef)}
    {new : List ContextId} {gone : List FunctionRef} (h : s.LetsGo now new gone)
    (hschedule : s.schedule = now :: later) (hgone : s'.gone = gone) (hlater : s'.schedule = later)
    (r : FunctionRef) (hr : s.Spares r) : s'.Spares r := by
  have htimes := hr.2
  rw [hschedule, List.forall_mem_cons] at htimes
  constructor
  · rw [hgone]
    exact fun hin => (h.only r hin).elim hr.1 htimes.1
  · rw [hlater]
    exact htimes.2

/-- Letting go of functions drops their closures. -/
theorem Sound.lettingGo (hs : s.Sound) : s.Sheds s.lettingGo := by
  unfold State.lettingGo
  split
  · exact .refl hs
  · rename_i now later hschedule
    obtain ⟨new, gone, heq, hgo⟩ := foldl_letGo_spec now { s with schedule := later }
    rw [heq]
    have hgo : s.LetsGo now new gone := { hgo with }
    have hperm : (s.memory.held gone ++ (new ++ s.scopes.dropped)).Perm
        (s.held ++ s.scopes.dropped) := by
      rw [← List.append_assoc]
      exact (List.perm_append_comm.trans hgo.perm).append_right _
    exact .of_survives hs (.of_scopes s _ _ _) hgo.grows (hgo.spares hschedule rfl rfl)
      (hgo.gone_lt hs.gone_lt) ((hs.exact.with_dropped _).perm_mentions hperm)
      (Sheds.survives_dropped s.scopes _) fun c hc => hperm.mem_iff.mp hc

/-! ### Reclaiming -/

/-- The closures that are dropped are reclaimed. -/
theorem Sound.reclaimed (hs : s.Sound) : ∃ scopes, s.scopes.reclaim = .ok scopes ∧
    s.Sheds { s with scopes := scopes } := by
  obtain ⟨scopes, hscopes, hexact, hsurvives⟩ :=
    Arena.reclaim_spec (hs.exact.perm_mentions List.perm_append_comm)
  refine ⟨scopes, hscopes, .of_survives hs (.of_scopes s _ _ _) (fun _ h => h)
    (fun _ h => h) hs.gone_lt ?_ hsurvives ?_⟩
  · rw [show scopes.dropped = [] from hsurvives.dropped, List.append_nil]
    exact hexact
  · rw [show scopes.dropped = [] from hsurvives.dropped, List.append_nil]
    exact fun c hc => List.mem_append_left _ hc

/-- One dropped closure is reclaimed, while functions are let go of. -/
theorem Sound.release_dropped (hs : s.Sound) {c : ContextId} {rest : List ContextId}
    (hdropped : s.scopes.dropped = c :: rest) {now : List FunctionRef}
    {later : List (List FunctionRef)} (hschedule : s.schedule = now :: later)
    {new : List ContextId} {gone : List FunctionRef} (hgo : s.LetsGo now new gone) :
    ∃ scopes, Arena.release { s.scopes with dropped := new ++ rest } c s.memory.closure? =
        .ok scopes ∧
      s.Sheds { s with gone := gone, scopes := scopes, schedule := later } := by
  have hperm : (c :: (s.memory.held gone ++ (new ++ rest))).Perm (s.held ++ s.scopes.dropped) := by
    rw [hdropped, ← List.append_assoc]
    exact (((List.perm_append_comm.trans hgo.perm).append_right rest).cons c).trans
      List.perm_middle.symm
  obtain ⟨scopes, hscopes, hexact, hsurvives⟩ := Arena.release_exact (k := {})
    ((hs.exact.with_dropped (new ++ rest)).perm_mentions hperm)
  refine ⟨scopes, hscopes, .of_survives hs (.of_scopes s _ _ _) hgo.grows
    (hgo.spares hschedule rfl rfl) (hgo.gone_lt hs.gone_lt) ?_ hsurvives ?_⟩
  · rw [show scopes.dropped = new ++ rest from hsurvives.dropped]
    exact hexact
  · rw [show scopes.dropped = new ++ rest from hsurvives.dropped]
    exact fun d hd => hperm.mem_iff.mp (List.mem_cons_of_mem c hd)

theorem Sound.reclaimFrom : ∀ (schedule : List (List FunctionRef)) {s : State}, s.Sound →
    ∃ s', reclaimFrom schedule s = .ok s' ∧ State.Sheds { s with schedule := schedule } s'
  | [], s, hs => by
      have hidle : State.Sound { s with schedule := [] } := { hs with }
      obtain ⟨scopes, hscopes, hsheds⟩ := hidle.reclaimed
      refine ⟨_, ?_, hsheds⟩
      rw [State.reclaimFrom, hscopes]
      rfl
  | now :: later, s, hs => by
      have hnow : State.Sound { s with schedule := now :: later } := { hs with }
      unfold State.reclaimFrom
      split
      · exact ⟨_, rfl, .refl hnow⟩
      · rename_i c rest hdropped
        obtain ⟨new, gone, heq, hgo⟩ :=
          foldl_letGo_spec now { s with scopes := { s.scopes with dropped := rest } }
        have hgo : State.LetsGo { s with schedule := now :: later } now new gone := { hgo with }
        obtain ⟨scopes, hscopes, hsheds⟩ := hnow.release_dropped hdropped rfl hgo
        obtain ⟨s', hs', hsheds'⟩ := Sound.reclaimFrom later
          (s := { s with gone := gone, scopes := scopes }) { hsheds.sound with }
        refine ⟨s', ?_, hsheds.trans hsheds'⟩
        dsimp only
        rw [heq]
        dsimp only [State.without] at hscopes ⊢
        rw [hscopes]
        exact hs'

/-- **Reclaiming finds no fault**, and takes nothing that the program can get at. -/
theorem Sound.reclaim (hs : s.Sound) : ∃ s', Eval.reclaim s = (.ok (), s') ∧ s.Sheds s' := by
  obtain ⟨s', hs', hsheds⟩ := Sound.reclaimFrom s.lettingGo.schedule hs.lettingGo.sound
  refine ⟨s', ?_, hs.lettingGo.trans hsheds⟩
  unfold Eval.reclaim State.reclaim
  rw [hs']

/-- What nothing refers to any more is let go of, or dropped closures are reclaimed. -/
inductive Collects (s : State) : State → Prop where
  | letGo : Collects s s.lettingGo
  | reclaimed {s' : State} : Eval.reclaim s = (.ok (), s') → Collects s s'

theorem Collects.sheds (h : s.Collects s') (hs : s.Sound) : s.Sheds s' := by
  cases h with
  | letGo => exact hs.lettingGo
  | reclaimed h =>
      obtain ⟨t, ht, hsheds⟩ := hs.reclaim
      obtain rfl : t = s' := congrArg Prod.snd (ht.symm.trans h)
      exact hsheds

theorem Collects.trims (h : s.Collects s') : s.Trims s' := by
  cases h with
  | letGo => exact s.trims_lettingGo
  | reclaimed h =>
      rcases s.reclaim_cases with ⟨t, ht, hok⟩ | ⟨fault, hfault⟩
      · obtain rfl : t = s' := congrArg Prod.snd (hok.symm.trans h)
        exact ht
      · cases hfault.symm.trans h

end State

end Classlet
