import Mathlib.Data.List.GetD
import Mathlib.Data.List.Nodup
import Classlet.Proofs.Scope.Session

/-! # What a session names

A session with an archive keeps its names in order (`Session.Tidy`): numbers stand for contexts
and scopes that exist, different numbers for different ones, a context is made after its parent,
and the base of a context is never a scope that was pushed.

The live contexts change with every request in a simple way: a new context comes to them
(`live_addContext`, `live_addClosure`), or roots go (`Live.of_roots`). -/

namespace Classlet.Session

variable {t : Session Archive}

/-- The names of a session with an archive are in order. -/
structure Tidy (t : Session Archive) : Prop where
  context_lt : ∀ c ∈ t.contexts, c.index < t.state.contexts.size
  closure_lt : ∀ c ∈ t.closures, c.index < t.state.contexts.size
  scope_lt : ∀ s ∈ t.scopes, s.index < t.state.frames.size
  contexts_nodup : t.contexts.Nodup
  closures_nodup : t.closures.Nodup
  disjoint : ∀ c ∈ t.contexts, c ∉ t.closures
  opened_lt : ∀ n ∈ t.opened, n < t.contexts.length
  opened_nodup : t.opened.Nodup
  held_lt : ∀ n ∈ t.queued ++ t.held, n < t.closures.length
  held_nodup : (t.queued ++ t.held).Nodup
  parent_lt : ∀ c p, (t.state.chain c).parent = some p → p.index < c.index
  stack_lt : ∀ c, ∀ s ∈ (t.state.chain c).scopes, s.index < t.state.frames.size
  /-- The outermost scope of a context was not pushed. -/
  base : ∀ c : ContextId, c.index < t.state.contexts.size →
    ∃ s, (t.state.chain c).scopes.getLast? = some s ∧ s ∉ t.scopes

theorem Tidy.start (m : Memory) : Tidy { state := { memory := m } } := by
  constructor <;> simp [Archive.chain]

/-! ### Names -/

theorem openedAt_mem {n : Nat} (h : n < t.contexts.length) : t.openedAt n ∈ t.contexts := by
  rw [openedAt, List.getD_eq_getElem _ _ h]
  exact List.getElem_mem h

theorem closureAt_mem {n : Nat} (h : n < t.closures.length) : t.closureAt n ∈ t.closures := by
  rw [closureAt, List.getD_eq_getElem _ _ h]
  exact List.getElem_mem h

theorem scopeAt_mem {n : Nat} (h : n < t.scopes.length) : t.scopeAt n ∈ t.scopes := by
  rw [scopeAt, List.getD_eq_getElem _ _ h]
  exact List.getElem_mem h

namespace Tidy

theorem openedAt_lt (h : t.Tidy) {n : Nat} (hn : n ∈ t.opened) :
    (t.openedAt n).index < t.state.contexts.size :=
  h.context_lt _ (openedAt_mem (h.opened_lt n hn))

theorem closureAt_lt (h : t.Tidy) {n : Nat} (hn : n ∈ t.queued ++ t.held) :
    (t.closureAt n).index < t.state.contexts.size :=
  h.closure_lt _ (closureAt_mem (h.held_lt n hn))

theorem openedAt_inj (h : t.Tidy) {m n : Nat} (hm : m ∈ t.opened) (hn : n ∈ t.opened)
    (he : t.openedAt m = t.openedAt n) : m = n := by
  have hm := h.opened_lt m hm
  have hn := h.opened_lt n hn
  rw [openedAt, openedAt, List.getD_eq_getElem _ _ hm, List.getD_eq_getElem _ _ hn] at he
  exact (h.contexts_nodup.getElem_inj_iff).mp he

theorem closureAt_inj (h : t.Tidy) {m n : Nat} (hm : m ∈ t.queued ++ t.held)
    (hn : n ∈ t.queued ++ t.held) (he : t.closureAt m = t.closureAt n) : m = n := by
  have hm := h.held_lt m hm
  have hn := h.held_lt n hn
  rw [closureAt, closureAt, List.getD_eq_getElem _ _ hm, List.getD_eq_getElem _ _ hn] at he
  exact (h.closures_nodup.getElem_inj_iff).mp he

theorem stack_ne_nil (h : t.Tidy) {c : ContextId} (hc : c.index < t.state.contexts.size) :
    (t.state.chain c).scopes ≠ [] := by
  obtain ⟨s, hs, -⟩ := h.base c hc
  intro he
  rw [he] at hs
  cases hs

theorem closureAt_ne_openedAt (h : t.Tidy) {m n : Nat} (hm : m ∈ t.queued ++ t.held)
    (hn : n ∈ t.opened) : t.openedAt n ≠ t.closureAt m := by
  intro he
  have hmem := closureAt_mem (h.held_lt m hm)
  rw [← he] at hmem
  exact h.disjoint _ (openedAt_mem (h.opened_lt n hn)) hmem

theorem context_lt_of_usable (h : t.Tidy) {x : Handle} (hx : t.Usable x) :
    (t.context x).index < t.state.contexts.size := by
  cases x with
  | opened n => exact h.openedAt_lt hx
  | closure n => exact h.closureAt_lt (List.mem_append_right _ hx)

theorem lt_of_live (h : t.Tidy) {c : ContextId} (hc : t.Live c) :
    c.index < t.state.contexts.size := by
  induction hc with
  | opened hn => exact h.openedAt_lt hn
  | closure hn => exact h.closureAt_lt hn
  | parent _ hp ih => exact Nat.lt_trans (h.parent_lt _ _ hp) ih

end Tidy

theorem Usable.live {x : Handle} (hx : t.Usable x) : t.Live (t.context x) := by
  cases x with
  | opened n => exact .opened hx
  | closure n => exact .closure (List.mem_append_right _ hx)

/-! ### Live contexts -/

/-- Whether a context was opened and is not released. -/
def Stacked (t : Session Archive) (c : ContextId) : Prop := ∃ n ∈ t.opened, t.openedAt n = c

/-- Where the roots of a session are live in another one that has its chains, all its live contexts
are. -/
theorem Live.of_roots {t' : Session Archive} {c : ContextId} (hc : t'.Live c)
    (hopened : ∀ n ∈ t'.opened, t.Live (t'.openedAt n))
    (hheld : ∀ n ∈ t'.queued ++ t'.held, t.Live (t'.closureAt n))
    (hparent : ∀ c p, t.Live c → (t'.state.chain c).parent = some p →
      (t.state.chain c).parent = some p) : t.Live c := by
  induction hc with
  | opened hn => exact hopened _ hn
  | closure hn => exact hheld _ hn
  | parent _ hp ih => exact ih.parent (hparent _ _ ih hp)

/-- Requests that leave the names alone and change no parent leave the live contexts alone. -/
theorem live_congr {w : Archive} (hparent : ∀ c, (w.chain c).parent = (t.state.chain c).parent)
    (scopes : List ScopeId) (c : ContextId) :
    Live { t with state := w, scopes := scopes } c ↔ t.Live c := by
  constructor
  · intro hc
    refine hc.of_roots (fun n hn => .opened hn) (fun n hn => .closure hn) fun d p _ hp => ?_
    rw [← hparent]
    exact hp
  · intro hc
    refine hc.of_roots (fun n hn => .opened hn) (fun n hn => .closure hn) fun d p _ hp => ?_
    rw [← hp]
    exact hparent d

/-- A session that has one root more than another one has one live context more. -/
theorem live_of_added {t' : Session Archive} {x : ContextId} (hx : t'.Live x)
    (hopened : ∀ n ∈ t'.opened, t'.openedAt n = x ∨ t.Live (t'.openedAt n))
    (hheld : ∀ n ∈ t'.queued ++ t'.held, t'.closureAt n = x ∨ t.Live (t'.closureAt n))
    (hopened' : ∀ n ∈ t.opened, t'.Live (t.openedAt n))
    (hheld' : ∀ n ∈ t.queued ++ t.held, t'.Live (t.closureAt n))
    (hold : ∀ c, t.Live c → (t'.state.chain c).parent = (t.state.chain c).parent)
    (hnew : ∀ p, (t'.state.chain x).parent = some p → t.Live p) (c : ContextId) :
    t'.Live c ↔ c = x ∨ t.Live c := by
  constructor
  · intro hc
    induction hc with
    | opened hn => exact hopened _ hn
    | closure hn => exact hheld _ hn
    | parent _ hp ih =>
        rcases ih with rfl | ih
        · exact .inr (hnew _ hp)
        · rw [hold _ ih] at hp
          exact .inr (ih.parent hp)
  · rintro (rfl | hc)
    · exact hx
    · induction hc with
      | opened hn => exact hopened' _ hn
      | closure hn => exact hheld' _ hn
      | parent hc hp ih =>
          rw [← hold _ hc] at hp
          exact ih.parent hp

/-- The session after what was dropped is reclaimed. -/
def settled (t : Session Archive) : Session Archive := { t with queued := [] }

theorem live_of_settled {c : ContextId} (hc : t.settled.Live c) : t.Live c :=
  hc.of_roots (fun _ hn => .opened hn) (fun _ hn => .closure (List.mem_append_right _ hn))
    fun _ _ _ hp => hp

theorem Tidy.not_live_new (h : t.Tidy) : ¬ t.Live ⟨t.state.contexts.size⟩ :=
  fun hl => Nat.lt_irrefl _ (h.lt_of_live hl)

theorem Usable.live_settled {x : Handle} (hx : t.Usable x) : t.settled.Live (t.context x) :=
  Usable.live (t := t.settled) (x := x) (by cases x <;> exact hx)

theorem perm_queueClosure {n : Nat} (hn : n ∈ t.held) :
    ((t.queueClosure n t.state).queued ++ (t.queueClosure n t.state).held).Perm
      (t.queued ++ t.held) :=
  (List.perm_middle.symm).trans ((List.perm_cons_erase hn).symm.append_left _)

theorem live_queueClosure {n : Nat} (hn : n ∈ t.held) (c : ContextId) :
    (t.queueClosure n t.state).Live c ↔ t.Live c := by
  constructor
  · intro hc
    exact hc.of_roots (fun m hm => .opened hm)
      (fun m hm => .closure ((perm_queueClosure hn).mem_iff.mp hm)) fun _ _ _ hp => hp
  · intro hc
    exact hc.of_roots (fun m hm => .opened hm)
      (fun m hm => .closure ((perm_queueClosure hn).mem_iff.mpr hm)) fun _ _ _ hp => hp

theorem live_of_closeContext {n : Nat} {c : ContextId} (hc : (t.closeContext n t.state).Live c) :
    t.Live c :=
  hc.of_roots (fun _ hm => .opened (List.mem_of_mem_erase hm)) (fun _ hm => .closure hm)
    fun _ _ _ hp => hp

section added
variable {c : ContextId} {w : Archive}

theorem openedAt_addContext {n : Nat} (hn : n < t.contexts.length) :
    (t.addContext c w).openedAt n = t.openedAt n :=
  List.getD_append _ _ _ _ hn

theorem openedAt_addContext_self : (t.addContext c w).openedAt t.contexts.length = c := by
  simp [openedAt, addContext]

theorem closureAt_addClosure {n : Nat} (hn : n < t.closures.length) :
    (t.addClosure c w).closureAt n = t.closureAt n :=
  List.getD_append _ _ _ _ hn

theorem closureAt_addClosure_self : (t.addClosure c w).closureAt t.closures.length = c := by
  simp [closureAt, addClosure]

theorem mem_opened_addContext {n : Nat} :
    n ∈ (t.addContext c w).opened ↔ n = t.contexts.length ∨ n ∈ t.opened :=
  List.mem_cons

theorem mem_held_addClosure {n : Nat} :
    n ∈ (t.addClosure c w).queued ++ (t.addClosure c w).held ↔
      n = t.closures.length ∨ n ∈ t.held :=
  List.mem_cons

theorem stacked_addContext (h : t.Tidy) (d : ContextId) :
    (t.addContext c w).Stacked d ↔ d = c ∨ t.Stacked d := by
  constructor
  · rintro ⟨n, hn, rfl⟩
    rcases mem_opened_addContext.mp hn with rfl | hn
    · exact .inl openedAt_addContext_self
    · exact .inr ⟨n, hn, (openedAt_addContext (h.opened_lt n hn)).symm⟩
  · rintro (rfl | ⟨n, hn, rfl⟩)
    · exact ⟨_, mem_opened_addContext.mpr (.inl rfl), openedAt_addContext_self⟩
    · exact ⟨n, mem_opened_addContext.mpr (.inr hn), openedAt_addContext (h.opened_lt n hn)⟩

/-- A context that is opened with a live parent comes to the live ones. -/
theorem live_addContext (h : t.Tidy)
    (hold : ∀ d : ContextId, d.index < t.state.contexts.size → w.chain d = t.state.chain d)
    (hnew : ∀ p, (w.chain c).parent = some p → t.settled.Live p) (d : ContextId) :
    (t.addContext c w).Live d ↔ d = c ∨ t.settled.Live d := by
  have hself : (t.addContext c w).Live c := by
    have hl : (t.addContext c w).Live ((t.addContext c w).openedAt t.contexts.length) :=
      .opened (mem_opened_addContext.mpr (.inl rfl))
    rwa [openedAt_addContext_self] at hl
  refine live_of_added (t := t.settled) hself ?_ (fun n hn => .inr (.closure hn)) ?_
    (fun n hn => .closure hn)
    (fun d hd => congrArg Chain.parent (hold d (h.lt_of_live (live_of_settled hd)))) hnew d
  · intro n hn
    rcases mem_opened_addContext.mp hn with rfl | hn
    · exact .inl openedAt_addContext_self
    · rw [openedAt_addContext (h.opened_lt n hn)]
      exact .inr (.opened hn)
  · intro n hn
    show (t.addContext c w).Live (t.openedAt n)
    rw [← openedAt_addContext (c := c) (w := w) (h.opened_lt n hn)]
    exact .opened (mem_opened_addContext.mpr (.inr hn))

/-- The context of a closure that was made in a live context comes to the live ones. -/
theorem live_addClosure (h : t.Tidy)
    (hold : ∀ d : ContextId, d.index < t.state.contexts.size → w.chain d = t.state.chain d)
    (hnew : ∀ p, (w.chain c).parent = some p → t.settled.Live p) (d : ContextId) :
    (t.addClosure c w).Live d ↔ d = c ∨ t.settled.Live d := by
  have hself : (t.addClosure c w).Live c := by
    have hl : (t.addClosure c w).Live ((t.addClosure c w).closureAt t.closures.length) :=
      .closure (mem_held_addClosure.mpr (.inl rfl))
    rwa [closureAt_addClosure_self] at hl
  have hlt : ∀ n ∈ t.held, n < t.closures.length :=
    fun n hn => h.held_lt n (List.mem_append_right _ hn)
  refine live_of_added (t := t.settled) hself (fun n hn => .inr (.opened hn)) ?_
    (fun n hn => .opened hn) ?_
    (fun d hd => congrArg Chain.parent (hold d (h.lt_of_live (live_of_settled hd)))) hnew d
  · intro n hn
    rcases mem_held_addClosure.mp hn with rfl | hn
    · exact .inl closureAt_addClosure_self
    · rw [closureAt_addClosure (hlt n hn)]
      exact .inr (.closure hn)
  · intro n hn
    show (t.addClosure c w).Live (t.closureAt n)
    rw [← closureAt_addClosure (c := c) (w := w) (hlt n hn)]
    exact .closure (mem_held_addClosure.mpr (.inr hn))

end added

/-! ### Names stay in order -/

namespace Tidy

theorem settled (h : t.Tidy) : t.settled.Tidy :=
  { h with
    held_lt := fun n hn => h.held_lt n (List.mem_append_right _ hn)
    held_nodup := (List.nodup_append.mp h.held_nodup).2.1 }

/-- Requests that make no context and no scope, and change no parent, keep the names in order. -/
theorem of_state (h : t.Tidy) {w : Archive} (hc : w.contexts.size = t.state.contexts.size)
    (hf : w.frames.size = t.state.frames.size)
    (hparent : ∀ c, (w.chain c).parent = (t.state.chain c).parent)
    (hsub : ∀ c, ∀ s ∈ (w.chain c).scopes, s ∈ (t.state.chain c).scopes)
    (hbase : ∀ c : ContextId, c.index < t.state.contexts.size →
      ∃ s, (w.chain c).scopes.getLast? = some s ∧ s ∉ t.scopes) : Tidy { t with state := w } :=
  { h with
    context_lt := fun c hm => by rw [hc]; exact h.context_lt c hm
    closure_lt := fun c hm => by rw [hc]; exact h.closure_lt c hm
    scope_lt := fun s hm => by rw [hf]; exact h.scope_lt s hm
    parent_lt := fun c p hp => h.parent_lt c p (by rw [← hparent]; exact hp)
    stack_lt := fun c s hs => by rw [hf]; exact h.stack_lt c s (hsub c s hs)
    base := fun c hlt => hbase c (by rw [← hc]; exact hlt) }

theorem popScope (h : t.Tidy) {c : ContextId} {s : ScopeId} {rest : List ScopeId}
    (hc : c.index < t.state.contexts.size) (hs : (t.state.chain c).scopes = s :: rest)
    (hpushed : s ∈ t.scopes) : Tidy { t with state := t.state.setScopes c rest } := by
  have hchain := t.state.chain_setScopes hc rest
  refine h.of_state (by simp [Archive.setScopes]) rfl (fun d => ?_) (fun d r hr => ?_)
    fun d hd => ?_
  · rw [hchain]
    split
    · rename_i he
      rw [he]
    · rfl
  · rw [hchain] at hr
    split at hr
    · rename_i he
      rw [he, hs]
      exact List.mem_cons_of_mem _ hr
    · exact hr
  · obtain ⟨b, hb, hnot⟩ := h.base d hd
    refine ⟨b, ?_, hnot⟩
    rw [hchain]
    split
    · rename_i he
      rw [he, hs] at hb
      -- the base was not pushed, so that it is not the scope that is popped
      cases rest with
      | nil =>
          cases hb
          exact absurd hpushed hnot
      | cons r rest => rwa [List.getLast?_cons_cons] at hb
    · exact hb

/-- A new context whose chain is in order keeps the names in order. -/
theorem of_push (h : t.Tidy) {x : Chain} {f : Array (Bindings Value)}
    (hf : t.state.frames.size ≤ f.size)
    (hparent : ∀ p, x.parent = some p → p.index < t.state.contexts.size)
    (hscopes : ∀ s ∈ x.scopes, s.index < f.size)
    (hbase : ∃ s, x.scopes.getLast? = some s ∧ s ∉ t.scopes) :
    Tidy { t with
      state := { t.state with frames := f, contexts := t.state.contexts.push x } } := by
  have hchain : ∀ c : ContextId, ({ t.state with
      frames := f, contexts := t.state.contexts.push x } : Archive).chain c =
      if c.index = t.state.contexts.size then x else t.state.chain c := by
    intro c
    simp only [Archive.chain, Array.getElem?_push]
    split <;> rfl
  refine { h with
    context_lt := fun c hm => ?_
    closure_lt := fun c hm => ?_
    scope_lt := fun s hm => Nat.lt_of_lt_of_le (h.scope_lt s hm) hf
    parent_lt := fun c p hp => ?_
    stack_lt := fun c s hs => ?_
    base := fun c hlt => ?_ }
  · simpa using Nat.lt_succ_of_lt (h.context_lt c hm)
  · simpa using Nat.lt_succ_of_lt (h.closure_lt c hm)
  · rw [hchain] at hp
    split at hp
    · rename_i he
      rw [he]
      exact hparent p hp
    · exact h.parent_lt c p hp
  · rw [hchain] at hs
    split at hs
    · exact hscopes s hs
    · exact Nat.lt_of_lt_of_le (h.stack_lt c s hs) hf
  · rw [hchain]
    split
    · exact hbase
    · rename_i hne
      have : c.index < t.state.contexts.size + 1 := by simpa using hlt
      exact h.base c (by omega)

theorem nodup_concat {l : List ContextId} {n : Nat} (hl : l.Nodup) (hlt : ∀ c ∈ l, c.index < n) :
    (l ++ [(⟨n⟩ : ContextId)]).Nodup := by
  refine List.nodup_append.mpr ⟨hl, List.nodup_singleton _, ?_⟩
  rintro c hc d hd rfl
  have hn := hlt c hc
  rw [List.mem_singleton.mp hd] at hn
  exact Nat.lt_irrefl _ hn

theorem addContext (h : t.Tidy) {parent : Option ContextId}
    (hp : ∀ p, parent = some p → p.index < t.state.contexts.size) :
    (t.addContext ⟨t.state.contexts.size⟩ (t.state.newContext parent).2).Tidy := by
  have hbase : (⟨t.state.frames.size⟩ : ScopeId) ∉ t.scopes :=
    fun hm => Nat.lt_irrefl _ (h.scope_lt _ hm)
  have hu := h.settled.of_push (x := { scopes := [⟨t.state.frames.size⟩], parent := parent })
    (f := t.state.frames.push []) (by simp [Session.settled]) hp (by simp) ⟨_, rfl, hbase⟩
  refine { hu with
    context_lt := fun c hm => ?_
    contexts_nodup := nodup_concat h.contexts_nodup h.context_lt
    disjoint := fun c hm hcl => ?_
    opened_lt := fun n hn => ?_
    opened_nodup := List.nodup_cons.mpr
      ⟨fun hm => Nat.lt_irrefl _ (h.opened_lt _ hm), h.opened_nodup⟩ }
  · rcases List.mem_append.mp hm with hm | hm
    · exact hu.context_lt c hm
    · rw [List.mem_singleton.mp hm]
      simp [Session.addContext, Archive.newContext]
  · rcases List.mem_append.mp hm with hm | hm
    · exact h.disjoint c hm hcl
    · rw [List.mem_singleton.mp hm] at hcl
      exact Nat.lt_irrefl _ (h.closure_lt _ hcl)
  · rw [Session.addContext, List.length_append, List.length_singleton]
    rcases mem_opened_addContext.mp hn with rfl | hn
    · exact Nat.lt_succ_self _
    · exact Nat.lt_succ_of_lt (h.opened_lt n hn)

theorem addClosure (h : t.Tidy) {c : ContextId} (hc : c.index < t.state.contexts.size) :
    (t.addClosure ⟨t.state.contexts.size⟩ (t.state.capture c).2).Tidy := by
  have hu := h.settled.of_push (x := t.state.chain c) (Nat.le_refl _)
    (fun p hp => Nat.lt_trans (h.parent_lt c p hp) hc) (h.stack_lt c) (h.base c hc)
  have hlt : ∀ n ∈ t.held, n < t.closures.length :=
    fun n hn => h.held_lt n (List.mem_append_right _ hn)
  refine { hu with
    closure_lt := fun d hm => ?_
    closures_nodup := nodup_concat h.closures_nodup h.closure_lt
    disjoint := fun d hm hcl => ?_
    held_lt := fun n hn => ?_
    held_nodup := List.nodup_cons.mpr
      ⟨fun hm => Nat.lt_irrefl _ (hlt _ hm), (List.nodup_append.mp h.held_nodup).2.1⟩ }
  · rcases List.mem_append.mp hm with hm | hm
    · exact hu.closure_lt d hm
    · rw [List.mem_singleton.mp hm]
      simp [Session.addClosure, Archive.capture]
  · rcases List.mem_append.mp hcl with hcl | hcl
    · exact h.disjoint d hm hcl
    · rw [List.mem_singleton.mp hcl] at hm
      exact Nat.lt_irrefl _ (h.context_lt _ hm)
  · rw [Session.addClosure, List.length_append, List.length_singleton]
    rcases mem_held_addClosure.mp hn with rfl | hn
    · exact Nat.lt_succ_self _
    · exact Nat.lt_succ_of_lt (hlt n hn)

theorem pushScope (h : t.Tidy) {c : ContextId} (hc : c.index < t.state.contexts.size) :
    (t.addScope ⟨t.state.frames.size⟩ (t.state.pushScope c).2).Tidy := by
  have hchain := t.state.chain_pushScope hc
  have hsize : (t.state.pushScope c).2.contexts.size = t.state.contexts.size := by
    simp [Archive.pushScope, Archive.setScopes]
  have hframes : (t.state.pushScope c).2.frames.size = t.state.frames.size + 1 := by
    simp [Archive.pushScope, Archive.setScopes]
  refine { h with
    context_lt := fun d hm => hsize ▸ h.context_lt d hm
    closure_lt := fun d hm => hsize ▸ h.closure_lt d hm
    scope_lt := fun s hm => ?_
    parent_lt := fun d p hp => ?_
    stack_lt := fun d s hs => ?_
    base := fun d hd => ?_ }
  · show s.index < (t.state.pushScope c).2.frames.size
    rw [hframes]
    rcases List.mem_append.mp hm with hm | hm
    · exact Nat.lt_succ_of_lt (h.scope_lt s hm)
    · rw [List.mem_singleton.mp hm]
      exact Nat.lt_succ_self _
  · refine h.parent_lt d p ?_
    rw [← hp]
    show _ = ((t.state.pushScope c).2.chain d).parent
    rw [hchain]
    split
    · rename_i he
      rw [he]
    · rfl
  · show s.index < (t.state.pushScope c).2.frames.size
    rw [hframes]
    change s ∈ ((t.state.pushScope c).2.chain d).scopes at hs
    rw [hchain] at hs
    split at hs
    · rcases List.mem_cons.mp hs with rfl | hs
      · exact Nat.lt_succ_self _
      · exact Nat.lt_succ_of_lt (h.stack_lt c s hs)
    · exact Nat.lt_succ_of_lt (h.stack_lt d s hs)
  · have hd' : d.index < t.state.contexts.size := hsize ▸ hd
    obtain ⟨b, hb, hnot⟩ := h.base d hd'
    have hlt := h.stack_lt d b (List.mem_of_getLast? hb)
    refine ⟨b, ?_, ?_⟩
    · show ((t.state.pushScope c).2.chain d).scopes.getLast? = some b
      rw [hchain]
      split
      · rename_i he
        rw [he] at hb hd'
        rw [List.getLast?_cons_of_ne_nil (h.stack_ne_nil hd')]
        exact hb
      · exact hb
    · intro hm
      rcases List.mem_append.mp hm with hm | hm
      · exact hnot hm
      · rw [List.mem_singleton.mp hm] at hlt
        exact Nat.lt_irrefl _ hlt

theorem closeContext (h : t.Tidy) (n : Nat) : (t.closeContext n t.state).Tidy :=
  { h with
    opened_lt := fun m hm => h.opened_lt m (List.mem_of_mem_erase hm)
    opened_nodup := h.opened_nodup.erase n }

theorem queueClosure (h : t.Tidy) {n : Nat} (hn : n ∈ t.held) :
    (t.queueClosure n t.state).Tidy :=
  { h with
    held_lt := fun m hm => h.held_lt m ((perm_queueClosure hn).mem_iff.mp hm)
    held_nodup := (perm_queueClosure hn).nodup_iff.mpr h.held_nodup }

end Tidy

end Classlet.Session
