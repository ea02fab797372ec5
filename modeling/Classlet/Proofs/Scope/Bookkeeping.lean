import Classlet.Proofs.Scope.Refinement

/-! # The books of an arena

What `Arena.Exact` says with counts over all slots is said here of the contexts in use, and of the
names that a session has: `Session.Audited` lists what each counter, each flag and each free list
stands for.  It holds after every session that keeps the discipline (`run_audited`), and no request
of such a session ends in a fault: no counter is overdrawn, and no stack is found in disorder. -/

namespace Classlet

namespace Arena

variable {α : Type} {a : Arena α} {k : Holdings}

/-- The contexts in use, in the order of their slots. -/
def live (a : Arena α) : List ContextId :=
  ((List.range a.contexts.size).map ContextId.mk).filter fun c => decide (c ∉ a.freeContexts)

theorem mem_live (a : Arena α) (c : ContextId) : c ∈ a.live ↔ a.InUse c := by
  simp only [live, List.mem_filter, List.mem_map, List.mem_range, decide_eq_true_eq, InUse]
  constructor
  · rintro ⟨⟨i, hi, rfl⟩, hfree⟩
    exact ⟨hi, hfree⟩
  · rintro ⟨hlt, hfree⟩
    exact ⟨⟨c.index, hlt, rfl⟩, hfree⟩

theorem nodup_live (a : Arena α) : a.live.Nodup := by
  refine (List.nodup_range.map fun i j h => ?_).filter _
  exact ContextId.mk.inj h

/-- Counts over all slots are counts over the contexts in use. -/
theorem Orderly.count_eq_length (ho : a.Orderly) {p : Context → Bool} (hp : p {} = false) :
    a.count p = (a.live.filter fun c => p (a.context c)).length := by
  have hlist : a.contexts.toList =
      ((List.range a.contexts.size).map ContextId.mk).map a.context := by
    refine List.ext_getElem (by simp) fun i hi _ => ?_
    have hi : i < a.contexts.size := hi
    simp [context, hi]
  have hfilter : a.live.filter (fun c => p (a.context c)) =
      ((List.range a.contexts.size).map ContextId.mk).filter fun c => p (a.context c) := by
    rw [live, List.filter_filter]
    refine List.filter_congr fun c _ => ?_
    by_cases hfree : c ∈ a.freeContexts
    · rw [ho.vacant c hfree, hp]
      rfl
    · simp [hfree]
  unfold count
  rw [hfilter, ← Array.countP_toList, hlist, List.countP_map, List.countP_eq_length_filter]
  rfl

/-- A property that one context has is a property that exactly one context has. -/
theorem Orderly.count_eq_one_iff (ho : a.Orderly) {p : Context → Bool} (hp : p {} = false) :
    a.count p = 1 ↔ ∃! c, a.InUse c ∧ p (a.context c) := by
  have hmem : ∀ c, c ∈ a.live.filter (fun c => p (a.context c)) ↔ a.InUse c ∧ p (a.context c) :=
    fun c => by rw [List.mem_filter, mem_live]
  rw [ho.count_eq_length hp, List.length_eq_one_iff]
  constructor
  · rintro ⟨c, hc⟩
    refine ⟨c, (hmem c).mp (by rw [hc]; exact List.mem_cons_self), fun d hd => ?_⟩
    have hd := (hmem d).mpr hd
    rw [hc] at hd
    exact List.mem_singleton.mp hd
  · rintro ⟨c, hc, hone⟩
    refine ⟨c, List.perm_singleton.mp ?_⟩
    refine (List.perm_ext_iff_of_nodup (a.nodup_live.filter _) (List.nodup_singleton c)).mpr
      fun d => ?_
    rw [hmem, List.mem_singleton]
    exact ⟨hone d, fun he => he ▸ hc⟩

/-- Where counts are exact, no context is its own ancestor. -/
theorem Exact.acyclic (h : a.Exact k) (c : ContextId) :
    ¬ Relation.TransGen (fun d p => a.InUse d ∧ (a.context d).parent = some p) c c := by
  obtain ⟨rank, hrank⟩ := h.ranked
  have hlt : ∀ {d e}, Relation.TransGen (fun d p => a.InUse d ∧ (a.context d).parent = some p) d e →
      rank e < rank d := by
    intro d e hde
    induction hde with
    | single hp => exact hrank _ _ hp.2
    | tail _ hp ih => exact Nat.lt_trans (hrank _ _ hp.2) ih
  exact fun hc => Nat.lt_irrefl _ (hlt hc)

end Arena

namespace Session

variable {slot : ContextId → ContextId} {place : ScopeId → ScopeId} {s : Session Store}
  {t : Session Archive}

/-- Every counter, flag and free list of the arena of a session says what it should. -/
structure Audited (s : Session Store) : Prop where
  /-- A frame is pinned once for each frozen context that has it. -/
  pins : ∀ f : ScopeId, f.index < s.state.scopes.frames.size →
    (s.state.scopes.frame f).pins = (s.state.scopes.live.filter fun c =>
      (s.state.scopes.context c).captured && decide (f ∈ (s.state.scopes.context c).scopes)).length
  /-- A frozen context is mentioned by its closure, while this is held or queued, and by each
  context that has it as parent. -/
  refs : ∀ c ∈ s.state.scopes.live, (s.state.scopes.context c).captured →
    (s.state.scopes.context c).refs =
      (if c ∈ (s.queued ++ s.held).map s.closureAt then 1 else 0) +
        (s.state.scopes.live.filter fun d =>
          decide ((s.state.scopes.context d).parent = some c)).length
  /-- A frame is flagged exactly if it is on the stack of one opened context, and of no other. -/
  flag : ∀ f : ScopeId, f.index < s.state.scopes.frames.size →
    ((s.state.scopes.frame f).live ↔
      ∃! c, c ∈ s.opened.map s.openedAt ∧ f ∈ (s.state.scopes.context c).scopes)
  /-- The opened contexts and the contexts of the closures are in use. -/
  opened_live : ∀ n ∈ s.opened, s.openedAt n ∈ s.state.scopes.live
  closure_live : ∀ n ∈ s.queued ++ s.held, s.closureAt n ∈ s.state.scopes.live
  freeFrames_nodup : s.state.scopes.freeFrames.Nodup
  freeContexts_nodup : s.state.scopes.freeContexts.Nodup
  /-- What a context in use mentions exists and is not free. -/
  scope_mentioned : ∀ c ∈ s.state.scopes.live, ∀ f ∈ (s.state.scopes.context c).scopes,
    f.index < s.state.scopes.frames.size ∧ f ∉ s.state.scopes.freeFrames
  parent_mentioned : ∀ c ∈ s.state.scopes.live, ∀ p, (s.state.scopes.context c).parent = some p →
    p ∈ s.state.scopes.live ∧ p ∉ s.state.scopes.freeContexts
  acyclic : ∀ c, ¬ Relation.TransGen (fun d p => d ∈ s.state.scopes.live ∧
    (s.state.scopes.context d).parent = some p) c c
  /-- A look-up ends before its fuel does. -/
  lookup_ends : ∀ c name m, s.state.scopes.contexts.size < m →
    s.state.scopes.getFrom? name m c = s.state.scopes.get? c name

namespace Matches

theorem mem_opened_iff (h : Matches slot place s t) (x : ContextId) :
    x ∈ s.opened.map s.openedAt ↔
      s.state.scopes.InUse x ∧ (s.state.scopes.context x).captured = false := by
  rw [h.opened, List.mem_map]
  constructor
  · rintro ⟨n, hn, rfl⟩
    have hl : t.Live (t.openedAt n) := .opened hn
    rw [h.openedAt_eq hn]
    exact ⟨h.holds.inUse _ hl, (h.holds.stacked _ hl).mpr ⟨n, hn, rfl⟩⟩
  · rintro ⟨hin, hcap⟩
    obtain ⟨c, hc, rfl⟩ := h.holds.onto x hin
    obtain ⟨n, hn, rfl⟩ := (h.holds.stacked c hc).mp hcap
    exact ⟨n, hn, h.openedAt_eq hn⟩

theorem mentions_eq (h : Matches slot place s t) :
    t.mentions slot = (s.queued ++ s.held).map s.closureAt ∧ (t.mentions slot).Nodup := by
  rw [h.queued, h.held]
  refine ⟨List.map_congr_left fun n hn => (h.closureAt_eq hn).symm, ?_⟩
  refine List.Nodup.map_on (fun m hm n hn he => ?_) h.tidy.held_nodup
  exact h.tidy.closureAt_inj hm hn (h.holds.slot_inj _ _ (.closure hm) (.closure hn) he)

/-- **The books of an arena that holds what a session needs are in order.** -/
theorem audited (h : Matches slot place s t) : s.Audited := by
  have hexact := h.holds.exact
  obtain ⟨hmentions, hnodup⟩ := h.mentions_eq
  constructor
  case pins =>
    intro f hf
    rw [hexact.pins_eq f hf, hexact.orderly.count_eq_length (Arena.pinsScope_empty f)]
    rfl
  case refs =>
    intro c _ hcap
    rw [hexact.refs_eq c hcap, hexact.orderly.count_eq_length (Arena.hasParent_empty c),
      ← hmentions, Nat.add_comm]
    show List.count c (t.mentions slot) + _ = _
    rw [hnodup.count]
    rfl
  case flag =>
    intro f hf
    have hl := hexact.live_eq f hf
    have hone : (s.state.scopes.frame f).live ↔
        s.state.scopes.count (Arena.stacksScope f) = 1 := by
      cases hlive : (s.state.scopes.frame f).live with
      | false =>
          rw [hlive] at hl
          simp at hl
          simp [← hl]
      | true =>
          rw [hlive] at hl
          simp at hl
          simp [← hl]
    rw [hone, hexact.orderly.count_eq_one_iff (Arena.stacksScope_empty f)]
    refine existsUnique_congr fun c => ?_
    rw [h.mem_opened_iff, Arena.stacksScope, Bool.and_eq_true, decide_eq_true_eq,
      Bool.not_eq_true', and_assoc]
  case opened_live =>
    intro n hn
    rw [Arena.mem_live]
    exact ((h.mem_opened_iff _).mp (List.mem_map_of_mem hn)).1
  case closure_live =>
    intro n hn
    rw [Arena.mem_live]
    refine hexact.mention_inUse _ ?_
    show s.closureAt n ∈ t.mentions slot
    rw [hmentions]
    exact List.mem_map_of_mem hn
  case freeFrames_nodup => exact hexact.orderly.frames_nodup
  case freeContexts_nodup => exact hexact.orderly.contexts_nodup
  case scope_mentioned => exact fun c _ f hf => hexact.scope_inUse hf
  case parent_mentioned =>
    intro c _ p hp
    have hin := hexact.parent_inUse c p hp
    exact ⟨(Arena.mem_live _ p).mpr hin, hin.2⟩
  case acyclic =>
    intro c hc
    simp only [Arena.mem_live] at hc
    exact hexact.acyclic c hc
  case lookup_ends => exact fun c name m hm => hexact.getFrom?_eq_get? name c hm

end Matches

/-- **The books are in order after every session that keeps the discipline**, and no request of it
ends in a fault. -/
theorem run_audited (m : Memory) {rs : List Request}
    (hd : Disciplined { state := { memory := m } } rs) :
    ∃ answers s, run Store.environment { state := { memory := m } } rs = .ok (answers, s) ∧
      s.Audited := by
  obtain ⟨answers, s, t, hs, -, slot, place, h⟩ := run_refines (Refines.start m) hd
  exact ⟨answers, s, hs, h.audited⟩

theorem run_audited_survivor :
    ∃ answers s, run Store.environment { state := {} } survivor = .ok (answers, s) ∧ s.Audited :=
  run_audited {} survivor_disciplined

end Session

end Classlet
