import Mathlib.Data.Set.Card
import Classlet.Proofs.Scope.Bookkeeping

/-! # Nothing leaks

A client needs the contexts that it opened and did not release, those of the closures that it did
not drop, and the ancestors of these (`Session.Needed`).  What a dropped closure held is given up
with the next allocation only, with all that hung on it.  Right after an allocation, then, an arena
has in use what its client needs and nothing else (`run_leaks_nothing`): a context in use is needed
(`Matches.needed_iff`), and a frame in use is on the scope list of a context in use
(`Exact.frameInUse_iff`). -/

namespace Classlet

namespace Arena

variable {α : Type} {a : Arena α} {k : Holdings}

/-- The slots below a bound that are not on a free list, counted. -/
theorem encard_taken {ι : Type} {index : ι → Nat} (hindex : Function.Bijective index) {n : Nat}
    {free : List ι} (hfree : free.Nodup) (hlt : ∀ x ∈ free, index x < n) :
    free.length ≤ n ∧ {x | index x < n ∧ x ∉ free}.encard = (n - free.length : Nat) := by
  classical
  have hnodup : (free.map index).Nodup := hfree.map hindex.injective
  have hsub : (free.map index).toFinset ⊆ Finset.range n := by
    intro i hi
    obtain ⟨x, hx, rfl⟩ := List.mem_map.mp (List.mem_toFinset.mp hi)
    exact Finset.mem_range.mpr (hlt x hx)
  have hcard : (free.map index).toFinset.card = free.length := by
    rw [List.toFinset_card_of_nodup hnodup, List.length_map]
  have himage : index '' {x | index x < n ∧ x ∉ free} =
      ↑(Finset.range n \ (free.map index).toFinset) := by
    ext i
    obtain ⟨x, rfl⟩ := hindex.surjective i
    simp [hindex.injective.eq_iff]
  constructor
  · have := Finset.card_le_card hsub
    rwa [hcard, Finset.card_range] at this
  · rw [← hindex.injective.encard_image, himage, Set.encard_coe_eq_coe_finsetCard,
      Finset.card_sdiff_of_subset hsub, hcard, Finset.card_range]

theorem Orderly.liveCounts_eq (ho : a.Orderly) : ∃ contexts frames : Nat,
    a.liveCounts = .ok (contexts, frames) ∧ {c | a.InUse c}.encard = contexts ∧
      {f | a.FrameInUse f}.encard = frames := by
  have hcontext : Function.Bijective ContextId.index :=
    ⟨fun ⟨i⟩ ⟨j⟩ h => congrArg ContextId.mk h, fun i => ⟨⟨i⟩, rfl⟩⟩
  have hscope : Function.Bijective ScopeId.index :=
    ⟨fun ⟨i⟩ ⟨j⟩ h => congrArg ScopeId.mk h, fun i => ⟨⟨i⟩, rfl⟩⟩
  obtain ⟨hc, hcontexts⟩ := encard_taken hcontext ho.contexts_nodup ho.contexts_lt
  obtain ⟨hf, hframes⟩ := encard_taken hscope ho.frames_nodup ho.frames_lt
  refine ⟨_, _, ?_, hcontexts, hframes⟩
  rw [liveCounts, if_neg (by simp [hc, hf])]

/-- Where no pin and no frame is held outside of the contexts, a frame in use is on the scope list
of a context in use. -/
theorem Exact.frameInUse_iff (h : a.Exact k) (hpins : k.pins = []) (hloose : k.loose = [])
    (f : ScopeId) : a.FrameInUse f ↔ ∃ c, a.InUse c ∧ f ∈ (a.context c).scopes := by
  have hinUse : ∀ c, f ∈ (a.context c).scopes → a.InUse c := by
    intro c hc
    by_contra hn
    rw [h.orderly.context_of_not_inUse hn] at hc
    cases hc
  constructor
  · rintro ⟨hlt, hfree⟩
    have hbusy : ¬ a.Idle f := fun hidle => hfree ((h.free_iff f hlt).mpr hidle)
    have hlive := h.live_eq f hlt
    have hpin := h.pins_eq f hlt
    rw [hloose, List.count_nil, Nat.add_zero] at hlive
    rw [hpins, List.count_nil, Nat.add_zero] at hpin
    -- a frame that is not idle is counted, either on a stack or in a frozen context
    rcases Nat.eq_zero_or_pos (a.count (pinsScope f)) with hzero | hpos
    · have hpos : 0 < a.count (stacksScope f) := by
        by_contra hn
        refine hbusy ⟨?_, hpin.trans hzero⟩
        cases hl : (a.frame f).live with
        | false => rfl
        | true =>
            rw [hl, if_pos rfl] at hlive
            omega
      obtain ⟨c, -, hc⟩ := a.exists_of_count_pos hpos
      simp only [stacksScope, Bool.and_eq_true, decide_eq_true_eq] at hc
      exact ⟨c, hinUse c hc.2, hc.2⟩
    · obtain ⟨c, -, hc⟩ := a.exists_of_count_pos hpos
      simp only [pinsScope, Bool.and_eq_true, decide_eq_true_eq] at hc
      exact ⟨c, hinUse c hc.2, hc.2⟩
  · rintro ⟨c, -, hc⟩
    exact h.scope_inUse hc

end Arena

/-- Whether a request makes a new context. -/
def Request.Allocates : Request → Prop
  | .newContext _ | .capture _ => True
  | _ => False

namespace Session

variable {slot : ContextId → ContextId} {place : ScopeId → ScopeId} {s : Session Store}
  {t : Session Archive}

/-- The contexts that a client needs: they are opened and not released, or belong to a closure that
is not dropped, or are an ancestor of one that is needed. -/
inductive Needed (s : Session Store) : ContextId → Prop
  | opened {n : Nat} : n ∈ s.opened → Needed s (s.openedAt n)
  | closure {n : Nat} : n ∈ s.held → Needed s (s.closureAt n)
  | parent {c p : ContextId} : Needed s c → (s.state.scopes.context c).parent = some p → Needed s p

/-- The numbers of the contexts that a client needs, and of the frames on their scope lists. -/
structure Needs (s : Session Store) (contexts frames : Nat) : Prop where
  /-- Contexts that the client tells apart are different. -/
  distinct : (s.opened.map s.openedAt ++ s.held.map s.closureAt).Nodup
  contexts : {c | s.Needed c}.encard = contexts
  frames : {f | ∃ c, s.Needed c ∧ f ∈ (s.state.scopes.context c).scopes}.encard = frames

namespace Matches

/-- Where no closure was dropped since the last allocation, what is in use is needed. -/
theorem needed_iff (h : Matches slot place s t) (hq : s.queued = []) (x : ContextId) :
    s.Needed x ↔ s.state.scopes.InUse x := by
  constructor
  · intro hx
    induction hx with
    | opened hn => exact ((h.mem_opened_iff _).mp (List.mem_map_of_mem hn)).1
    | closure hn =>
        refine h.holds.exact.mention_inUse _ ?_
        rw [h.mentions_eq.1]
        exact List.mem_map_of_mem (List.mem_append_right _ hn)
    | parent _ hp _ => exact h.holds.exact.parent_inUse _ _ hp
  · intro hx
    obtain ⟨c, hc, rfl⟩ := h.holds.onto x hx
    induction hc with
    | opened hn =>
        rw [← h.openedAt_eq hn]
        exact .opened (h.opened ▸ hn)
    | closure hn =>
        rw [← h.closureAt_eq hn]
        rw [← h.queued, hq, List.nil_append, ← h.held] at hn
        exact .closure hn
    | parent hc hp ih =>
        refine .parent (ih (h.holds.inUse _ hc)) ?_
        rw [h.holds.parent _ hc, hp]
        rfl

/-- Contexts that a client tells apart are different. -/
theorem distinct (h : Matches slot place s t) :
    (s.opened.map s.openedAt ++ s.held.map s.closureAt).Nodup := by
  have hopened : s.opened.map s.openedAt = t.opened.map fun n => slot (t.openedAt n) := by
    rw [h.opened]
    exact List.map_congr_left fun n hn => h.openedAt_eq hn
  have hheld : ∀ n ∈ t.held, n ∈ t.queued ++ t.held := fun _ => List.mem_append_right _
  have hclosures : s.held.map s.closureAt = t.held.map fun n => slot (t.closureAt n) := by
    rw [h.held]
    exact List.map_congr_left fun n hn => h.closureAt_eq (hheld n hn)
  rw [hopened, hclosures, List.nodup_append']
  refine ⟨List.Nodup.map_on (fun m hm n hn he => ?_) h.tidy.opened_nodup,
    List.Nodup.map_on (fun m hm n hn he => ?_) h.tidy.held_nodup.of_append_right, ?_⟩
  · exact h.tidy.openedAt_inj hm hn (h.holds.slot_inj _ _ (.opened hm) (.opened hn) he)
  · have hm := hheld m hm
    have hn := hheld n hn
    exact h.tidy.closureAt_inj hm hn (h.holds.slot_inj _ _ (.closure hm) (.closure hn) he)
  · intro x hx hy
    obtain ⟨m, hm, rfl⟩ := List.mem_map.mp hx
    obtain ⟨n, hn, he⟩ := List.mem_map.mp hy
    have hn := hheld n hn
    exact h.tidy.closureAt_ne_openedAt hn hm
      (h.holds.slot_inj _ _ (.opened hm) (.closure hn) he.symm)

/-- Where no closure was dropped since the last allocation, the counts are those of what is
needed. -/
theorem needs (h : Matches slot place s t) (hq : s.queued = []) : ∃ contexts frames,
    s.state.scopes.liveCounts = .ok (contexts, frames) ∧ s.Needs contexts frames := by
  obtain ⟨contexts, frames, hcounts, hcontexts, hframes⟩ := h.holds.exact.orderly.liveCounts_eq
  refine ⟨contexts, frames, hcounts, h.distinct, ?_, ?_⟩
  · simp only [h.needed_iff hq]
    exact hcontexts
  · simp only [h.needed_iff hq, ← h.holds.exact.frameInUse_iff rfl rfl]
    exact hframes

end Matches

theorem exists_of_map_eq_ok {ε β γ : Type} {f : β → γ} {y : γ} :
    ∀ {x : Except ε β}, x.map f = .ok y → ∃ b, x = .ok b ∧ f b = y
  | .ok b, h => ⟨b, rfl, Except.ok.inj h⟩

section

variable {σ : Type} {E : Environment σ}

theorem queued_of_allocates {r : Request} (hr : r.Allocates) {s s' : Session σ} {answer : Answer}
    (h : s.step E r = .ok (answer, s')) : s'.queued = [] := by
  cases r with
  | newContext parent =>
      obtain ⟨x, -, hx⟩ := exists_of_map_eq_ok h
      cases hx
      rfl
  | capture c =>
      obtain ⟨x, -, hx⟩ := exists_of_map_eq_ok h
      cases hx
      rfl
  | _ => exact hr.elim

theorem exists_last_step {r : Request} : ∀ {rs : List Request} {s s' : Session σ}
    {answers : List Answer}, s.run E (rs ++ [r]) = .ok (answers, s') →
      ∃ (s₁ : Session σ) (answer : Answer), s₁.step E r = .ok (answer, s')
  | [], s, s', answers, h => by
      rw [List.nil_append, run] at h
      split at h
      · cases h
      · cases h
        exact ⟨s, _, ‹_›⟩
  | q :: rs, s, s', answers, h => by
      rw [List.cons_append, run] at h
      split at h
      · cases h
      · obtain ⟨x, hrun, hx⟩ := exists_of_map_eq_ok h
        cases hx
        exact exists_last_step hrun

end

/-- **Nothing leaks.**  When a context was made, the counts of an arena are the numbers of the
contexts that its client needs and of the frames on their scope lists. -/
theorem run_leaks_nothing (m : Memory) {rs : List Request} {r : Request} (hr : r.Allocates)
    (hd : Disciplined { state := { memory := m } } (rs ++ [r])) :
    ∃ answers s contexts frames,
      run Store.environment { state := { memory := m } } (rs ++ [r]) = .ok (answers, s) ∧
        s.state.scopes.liveCounts = .ok (contexts, frames) ∧ s.Needs contexts frames := by
  obtain ⟨answers, s, t, hs, -, slot, place, h⟩ := run_refines (Refines.start m) hd
  obtain ⟨_, _, hlast⟩ := exists_last_step hs
  obtain ⟨contexts, frames, hcounts, hneeds⟩ := h.needs (queued_of_allocates hr hlast)
  exact ⟨answers, s, contexts, frames, hs, hcounts, hneeds⟩

theorem Disciplined.left : ∀ {rs rs' : List Request} {t : Session Archive},
    t.Disciplined (rs ++ rs') → t.Disciplined rs
  | [], _, _, _ => trivial
  | _ :: _, _, _, h => ⟨h.1, fun answer t' ht => (h.2 answer t' ht).left⟩

/-- The closure of `survivor` is dropped and its caller released when the last context is made. -/
theorem run_leaks_nothing_survivor :
    ∃ answers s contexts frames,
      run Store.environment { state := {} } (survivor.take 9 ++ [.newContext none]) =
          .ok (answers, s) ∧
        s.state.scopes.liveCounts = .ok (contexts, frames) ∧ s.Needs contexts frames := by
  have hparts : survivor = survivor.take 9 ++ [.newContext none] ++ survivor.drop 10 := rfl
  exact run_leaks_nothing {} (r := .newContext none) trivial (hparts ▸ survivor_disciplined).left

end Session

end Classlet
