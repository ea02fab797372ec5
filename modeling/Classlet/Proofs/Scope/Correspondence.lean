import Mathlib.Data.List.Find
import Classlet.Proofs.Scope.Operation
import Classlet.Proofs.Scope.Liveness

/-! # An arena that holds the live part of an archive

`Holds slot place t a` says that the arena `a` has the live contexts of the session `t` in its
slots, and nothing else in use: `slot` tells where a context of the archive is, and `place` where
a scope is.  Neither has to be injective, or to make sense, beyond what is live.  That is what
allows slots to be reused.

* `Holds.give_up` is the heart of it: when roots of the session go, and the arena gives up
  mentions of them, then the contexts that stay in use are those that stay live.
* `Holds.add` puts a new context into a slot that is not in use.
* `Holds.restack` changes the stack of an opened context. -/

namespace Classlet.Session

open Arena (Exact Survives Adds)

variable {slot : ContextId → ContextId} {place : ScopeId → ScopeId} {t : Session Archive}
  {a b : Arena Value}

/-- The contexts that the closures of a session mention. -/
def mentions (slot : ContextId → ContextId) (t : Session Archive) : List ContextId :=
  (t.queued ++ t.held).map fun n => slot (t.closureAt n)

/-- The arena holds the live contexts of a session, with their scopes and variables. -/
structure Holds (slot : ContextId → ContextId) (place : ScopeId → ScopeId) (t : Session Archive)
    (a : Arena Value) : Prop where
  exact : a.Exact { mentions := t.mentions slot }
  inUse : ∀ c, t.Live c → a.InUse (slot c)
  onto : ∀ x, a.InUse x → ∃ c, t.Live c ∧ slot c = x
  slot_inj : ∀ c d, t.Live c → t.Live d → slot c = slot d → c = d
  scopes : ∀ c, t.Live c → (a.context (slot c)).scopes = (t.state.chain c).scopes.map place
  parent : ∀ c, t.Live c → (a.context (slot c)).parent = (t.state.chain c).parent.map slot
  stacked : ∀ c, t.Live c → ((a.context (slot c)).captured = false ↔ t.Stacked c)
  values : ∀ c, t.Live c → ∀ s ∈ (t.state.chain c).scopes,
    (a.frame (place s)).values = t.state.frame s
  place_inj : ∀ c d, t.Live c → t.Live d → ∀ s ∈ (t.state.chain c).scopes,
    ∀ r ∈ (t.state.chain d).scopes, place s = place r → s = r

namespace Holds

theorem place_inUse (h : Holds slot place t a) {c : ContextId} (hc : t.Live c) {s : ScopeId}
    (hs : s ∈ (t.state.chain c).scopes) : a.FrameInUse (place s) := by
  refine h.exact.scope_inUse (c := slot c) ?_
  rw [h.scopes c hc]
  exact List.mem_map_of_mem hs

theorem exists_parent (h : Holds slot place t a) {c : ContextId} (hc : t.Live c) {x : ContextId}
    (hx : (a.context (slot c)).parent = some x) :
    ∃ p, (t.state.chain c).parent = some p ∧ t.Live p ∧ slot p = x := by
  rw [h.parent c hc] at hx
  obtain ⟨p, hp, he⟩ := Option.map_eq_some_iff.mp hx
  exact ⟨p, hp, hc.parent hp, he⟩

theorem frozen (h : Holds slot place t a) (ht : t.Tidy) {n : Nat} (hn : n ∈ t.queued ++ t.held) :
    (a.context (slot (t.closureAt n))).captured := by
  by_contra hcap
  obtain ⟨m, hm, he⟩ := (h.stacked _ (.closure hn)).mp (Bool.not_eq_true _ ▸ hcap)
  exact ht.closureAt_ne_openedAt hn hm he

/-! ### Giving up -/

/-- A context that stays in use after mentions were given up is still live. -/
theorem live_of_inUse (h : Holds slot place t a) (ht : t.Tidy) {t' : Session Archive}
    {lost : List ContextId} (hs : Survives (fun _ => none) lost a b)
    (hexact : b.Exact { mentions := t'.mentions slot }) (hstate : t'.state = t.state)
    (hlive : ∀ c, t'.Live c → t.Live c)
    (hgone : ∀ c, t.Stacked c → ¬ t'.Stacked c → ¬ b.InUse (slot c)) :
    ∀ (n : Nat) (c : ContextId), t.state.contexts.size ≤ c.index + n → t.Live c →
      b.InUse (slot c) → t'.Live c
  | 0, c, hn, hc, _ => by
      have := ht.lt_of_live hc
      omega
  | n + 1, c, hn, hc, huse => by
      have hagree := hs.context _ huse
      cases hcap : (b.context (slot c)).captured with
      | false =>
          -- an opened context stays as long as it is not released
          have hst := (h.stacked c hc).mp (hagree.captured ▸ hcap)
          by_contra hnot
          refine hgone c hst (fun hst' => hnot ?_) huse
          obtain ⟨m, hm, rfl⟩ := hst'
          exact .opened hm
      | true =>
          -- a frozen one has a mention left: of a closure, or of a context made after it
          have hpos := hexact.refs_pos _ hcap
          rw [hexact.refs_eq _ hcap] at hpos
          rcases Nat.eq_zero_or_pos (List.count (slot c) (t'.mentions slot)) with hzero | hm
          · have hcount : 0 < b.count (Arena.hasParent (slot c)) := by
              simp only [hzero] at hpos
              exact hpos
            obtain ⟨y, -, hy⟩ := b.exists_of_count_pos hcount
            have hy : (b.context y).parent = some (slot c) := by simpa [Arena.hasParent] using hy
            have hyuse : b.InUse y := by
              by_contra hn
              rw [hexact.orderly.context_of_not_inUse hn] at hy
              cases hy
            obtain ⟨d, hd, rfl⟩ := h.onto y (hs.inUse y hyuse)
            rw [(hs.context _ hyuse).parent] at hy
            obtain ⟨p, hp, hpl, he⟩ := h.exists_parent hd hy
            obtain rfl := h.slot_inj p c hpl hc he
            have hlt := ht.parent_lt d p hp
            have hd' := live_of_inUse h ht hs hexact hstate hlive hgone n d (by omega) hd hyuse
            refine hd'.parent ?_
            rw [hstate]
            exact hp
          · obtain ⟨m, hm, he⟩ := List.mem_map.mp (List.count_pos_iff.mp hm)
            have hm' : t'.Live (t'.closureAt m) := .closure hm
            rw [← h.slot_inj _ c (hlive _ hm') hc he]
            exact hm'

/-- **Roots go, and with them exactly what nothing else needs.** -/
theorem give_up (h : Holds slot place t a) (ht : t.Tidy) {t' : Session Archive}
    {lost : List ContextId} (hs : Survives (fun _ => none) lost a b)
    (hexact : b.Exact { mentions := t'.mentions slot }) (hstate : t'.state = t.state)
    (hlive : ∀ c, t'.Live c → t.Live c) (hsub : ∀ c, t'.Stacked c → t.Stacked c)
    (hkept : ∀ c, t'.Stacked c → slot c ∉ lost)
    (hgone : ∀ c, t.Stacked c → ¬ t'.Stacked c → ¬ b.InUse (slot c)) :
    Holds slot place t' b := by
  have huse : ∀ c, t'.Live c → b.InUse (slot c) := by
    intro c hc
    induction hc with
    | opened hn =>
        have hst := hsub _ ⟨_, hn, rfl⟩
        have hl := hlive _ (.opened hn)
        exact hs.opened _ (h.inUse _ hl) ((h.stacked _ hl).mpr hst) (hkept _ ⟨_, hn, rfl⟩)
    | closure hn => exact hexact.mention_inUse _ (List.mem_map_of_mem hn)
    | parent hc hp ih =>
        rename_i c p
        refine hexact.parent_inUse (slot c) (slot p) ?_
        rw [(hs.context _ ih).parent, h.parent c (hlive c hc), ← hstate, hp]
        rfl
  have hscopes : ∀ c, t'.Live c → ∀ s ∈ (t.state.chain c).scopes, b.FrameInUse (place s) := by
    intro c hc s hm
    refine hexact.scope_inUse (c := slot c) ?_
    rw [(hs.context _ (huse c hc)).scopes, h.scopes c (hlive c hc)]
    exact List.mem_map_of_mem hm
  constructor
  case exact => exact hexact
  case inUse => exact huse
  case onto =>
    intro x hx
    obtain ⟨c, hc, rfl⟩ := h.onto x (hs.inUse x hx)
    exact ⟨c, h.live_of_inUse ht hs hexact hstate hlive hgone _ c (Nat.le_add_left _ _) hc hx, rfl⟩
  case slot_inj => exact fun c d hc hd => h.slot_inj c d (hlive c hc) (hlive d hd)
  case scopes =>
    intro c hc
    rw [(hs.context _ (huse c hc)).scopes, hstate]
    exact h.scopes c (hlive c hc)
  case parent =>
    intro c hc
    rw [(hs.context _ (huse c hc)).parent, hstate]
    exact h.parent c (hlive c hc)
  case stacked =>
    intro c hc
    rw [(hs.context _ (huse c hc)).captured, h.stacked c (hlive c hc)]
    refine ⟨fun hst => ?_, hsub c⟩
    by_contra hnot
    exact hgone c hst hnot (huse c hc)
  case values =>
    intro c hc s hm
    rw [hstate] at hm ⊢
    rw [hs.values (hscopes c hc s hm)]
    exact h.values c (hlive c hc) s hm
  case place_inj =>
    intro c d hc hd
    rw [hstate]
    exact h.place_inj c d (hlive c hc) (hlive d hd)

theorem of_dropped (h : Holds slot place t a) (l : List ContextId) :
    Holds slot place t { a with dropped := l } :=
  { h with exact := { h.exact with orderly := { h.exact.orderly with } } }

theorem reclaim (h : Holds slot place t a) (ht : t.Tidy)
    (hdropped : a.dropped = t.queued.map fun n => slot (t.closureAt n)) :
    ∃ b, a.reclaim = .ok b ∧ Holds slot place t.settled b ∧ b.dropped = [] := by
  have hmentions : t.mentions slot = a.dropped ++ t.settled.mentions slot := by
    rw [hdropped]
    exact List.map_append
  have hexact := h.exact
  rw [hmentions] at hexact
  obtain ⟨b, hb, hexact', hs⟩ := Arena.reclaim_spec (k := {}) hexact
  refine ⟨b, hb, ?_, hs.dropped⟩
  exact (h.of_dropped []).give_up ht hs hexact' rfl (fun _ => live_of_settled) (fun _ hc => hc)
    (fun _ _ => List.not_mem_nil) fun _ hst hnot => absurd hst hnot

theorem releaseContext (h : Holds slot place t a) (ht : t.Tidy) {n : Nat} (hn : n ∈ t.opened)
    (hone : (t.state.chain (t.openedAt n)).scopes.length = 1)
    (hchild : ∀ c, t.Live c → (t.state.chain c).parent ≠ some (t.openedAt n)) :
    ∃ b, a.releaseContext (slot (t.openedAt n)) = .ok b ∧
      Holds slot place (t.closeContext n t.state) b ∧ b.dropped = a.dropped := by
  have hl : t.Live (t.openedAt n) := .opened hn
  have hcap := (h.stacked _ hl).mpr ⟨n, hn, rfl⟩
  obtain ⟨s, hs⟩ := List.length_eq_one_iff.mp hone
  have hscopes := h.scopes _ hl
  rw [hs] at hscopes
  have hparent : ∀ x, (a.context x).parent ≠ some (slot (t.openedAt n)) := by
    intro x hx
    have hin : a.InUse x := by
      by_contra hnot
      rw [h.exact.orderly.context_of_not_inUse hnot] at hx
      cases hx
    obtain ⟨c, hc, rfl⟩ := h.onto x hin
    obtain ⟨p, hp, hpl, he⟩ := h.exists_parent hc hx
    exact hchild c hc (h.slot_inj _ _ hpl hl he ▸ hp)
  have hmention : slot (t.openedAt n) ∉ t.mentions slot := by
    intro hm
    obtain ⟨m, hm, he⟩ := List.mem_map.mp hm
    have hfrozen := h.frozen ht hm
    rw [he, hcap] at hfrozen
    cases hfrozen
  obtain ⟨b, hb, hexact, hsurv, hgone⟩ :=
    Arena.releaseContext_spec h.exact (h.inUse _ hl) hcap hscopes hparent hmention
  refine ⟨b, hb, ?_, hsurv.dropped⟩
  refine h.give_up ht hsurv hexact rfl (fun _ => live_of_closeContext) ?_ ?_ ?_
  · rintro c ⟨m, hm, rfl⟩
    exact ⟨m, List.mem_of_mem_erase hm, rfl⟩
  · rintro c ⟨m, hm, rfl⟩ hlost
    have hm' := (ht.opened_nodup.mem_erase_iff).mp hm
    have he := h.slot_inj _ _ (.opened hm'.2) hl (List.mem_singleton.mp hlost)
    exact hm'.1 (ht.openedAt_inj hm'.2 hn he)
  · rintro c ⟨m, hm, rfl⟩ hnot
    have he : m = n := by
      by_contra hne
      exact hnot ⟨m, (ht.opened_nodup.mem_erase_iff).mpr ⟨hne, hm⟩, rfl⟩
    rw [he]
    exact hgone

theorem queueClosure (h : Holds slot place t a) {n : Nat} (hn : n ∈ t.held) :
    Holds slot place (t.queueClosure n t.state) (a.dropClosure (slot (t.closureAt n))) := by
  have hlive := live_queueClosure hn
  have hperm : ((t.queueClosure n t.state).mentions slot).Perm (t.mentions slot) :=
    (perm_queueClosure hn).map _
  have hexact : a.Exact { mentions := (t.queueClosure n t.state).mentions slot } :=
    h.exact.congr_mentions (fun d hd => h.exact.mention_inUse d (hperm.mem_iff.mp hd))
      fun d _ => hperm.count_eq d
  refine Holds.of_dropped (a := a)
    { exact := hexact
      inUse := fun d hd => h.inUse d ((hlive d).mp hd)
      onto := fun x hx => ?_
      slot_inj := fun d e hd he => h.slot_inj d e ((hlive d).mp hd) ((hlive e).mp he)
      scopes := fun d hd => h.scopes d ((hlive d).mp hd)
      parent := fun d hd => h.parent d ((hlive d).mp hd)
      stacked := fun d hd => h.stacked d ((hlive d).mp hd)
      values := fun d hd => h.values d ((hlive d).mp hd)
      place_inj := fun d e hd he => h.place_inj d e ((hlive d).mp hd) ((hlive e).mp he) } _
  obtain ⟨d, hd, he⟩ := h.onto x hx
  exact ⟨d, (hlive d).mpr hd, he⟩

/-! ### New contexts -/

/-- A new context is added, with new scopes or with scopes of a live context. -/
theorem add (h : Holds slot place t a) {t' : Session Archive} {c x : ContextId} {y : Context}
    {news : List ScopeId} {slot' : ContextId → ContextId} {place' : ScopeId → ScopeId}
    (hadds : Adds a b x y news) (hexact : b.Exact { mentions := t'.mentions slot' })
    (hslot : ∀ d, t.Live d → slot' d = slot d) (hself : slot' c = x) (hfresh : ¬ t.Live c)
    (hlive : ∀ d, t'.Live d ↔ d = c ∨ t.Live d)
    (hchain : ∀ d, t.Live d → t'.state.chain d = t.state.chain d)
    (hplace : ∀ d, t.Live d → ∀ s ∈ (t.state.chain d).scopes,
      place' s = place s ∧ t'.state.frame s = t.state.frame s)
    (hyscopes : y.scopes = (t'.state.chain c).scopes.map place')
    (hyparent : y.parent = (t'.state.chain c).parent.map slot')
    (hstack : ∀ d, t.Live d → (t'.Stacked d ↔ t.Stacked d))
    (hystack : y.captured = false ↔ t'.Stacked c)
    (hvalues : ∀ s ∈ (t'.state.chain c).scopes, (b.frame (place' s)).values = t'.state.frame s)
    (hinj : ∀ d, t'.Live d → ∀ s ∈ (t'.state.chain c).scopes, ∀ r ∈ (t'.state.chain d).scopes,
      place' s = place' r → s = r) :
    Holds slot' place' t' b := by
  have hnew : ∀ d, t.Live d → slot d ≠ x := fun d hd he => hadds.fresh (he ▸ h.inUse d hd)
  have hold : ∀ d, t.Live d → ((b.context (slot' d)).Agrees (a.context (slot d))) := by
    intro d hd
    rw [hslot d hd]
    exact hadds.context_old _ (hnew d hd)
  constructor
  case exact => exact hexact
  case inUse =>
    intro d hd
    rw [hadds.inUse]
    rcases (hlive d).mp hd with rfl | hd
    · exact .inl hself
    · rw [hslot d hd]
      exact .inr (h.inUse d hd)
  case onto =>
    intro z hz
    rcases (hadds.inUse z).mp hz with rfl | hz
    · exact ⟨c, (hlive c).mpr (.inl rfl), hself⟩
    · obtain ⟨d, hd, rfl⟩ := h.onto z hz
      exact ⟨d, (hlive d).mpr (.inr hd), hslot d hd⟩
  case slot_inj =>
    intro d e hd he heq
    rcases (hlive d).mp hd with rfl | hd <;> rcases (hlive e).mp he with rfl | he
    · rfl
    · rw [hself, hslot e he] at heq
      exact absurd heq.symm (hnew e he)
    · rw [hself, hslot d hd] at heq
      exact absurd heq (hnew d hd)
    · rw [hslot d hd, hslot e he] at heq
      exact h.slot_inj d e hd he heq
  case scopes =>
    intro d hd
    rcases (hlive d).mp hd with rfl | hd
    · rw [hself, hadds.context_new.scopes, hyscopes]
    · rw [(hold d hd).scopes, h.scopes d hd, hchain d hd]
      exact List.map_congr_left fun s hs => (hplace d hd s hs).1.symm
  case parent =>
    intro d hd
    rcases (hlive d).mp hd with rfl | hd
    · rw [hself, hadds.context_new.parent, hyparent]
    · rw [(hold d hd).parent, h.parent d hd, hchain d hd]
      cases hp : (t.state.chain d).parent with
      | none => rfl
      | some p => exact congrArg some (hslot p (hd.parent hp)).symm
  case stacked =>
    intro d hd
    rcases (hlive d).mp hd with rfl | hd
    · rw [hself, hadds.context_new.captured, hystack]
    · rw [(hold d hd).captured, h.stacked d hd, hstack d hd]
  case values =>
    intro d hd s hs
    rcases (hlive d).mp hd with rfl | hd
    · exact hvalues s hs
    · rw [hchain d hd] at hs
      have hin := h.place_inUse hd hs
      rw [(hplace d hd s hs).1, (hplace d hd s hs).2,
        hadds.values_old _ fun hm => hadds.frame_fresh _ hm hin]
      exact h.values d hd s hs
  case place_inj =>
    intro d e hd he s hs r hr heq
    rcases (hlive d).mp hd with rfl | hd'
    · exact hinj e he s hs r hr heq
    · rcases (hlive e).mp he with rfl | he'
      · exact (hinj d hd r hr s hs heq.symm).symm
      · rw [hchain d hd'] at hs
        rw [hchain e he'] at hr
        rw [(hplace d hd' s hs).1, (hplace e he' r hr).1] at heq
        exact h.place_inj d e hd' he' s hs r hr heq

/-- The slot of what exists stays where it is when a slot is chosen for a new context. -/
theorem update_of_lt {n : Nat} {x : ContextId} {c : ContextId} (hc : c.index < n) :
    Function.update slot ⟨n⟩ x c = slot c := by
  refine Function.update_of_ne ?_ _ _
  rintro rfl
  exact Nat.lt_irrefl _ hc

theorem update_scope_of_lt {n : Nat} {x : ScopeId} {s : ScopeId} (hs : s.index < n) :
    Function.update place ⟨n⟩ x s = place s := by
  refine Function.update_of_ne ?_ _ _
  rintro rfl
  exact Nat.lt_irrefl _ hs

/-- A context is opened in a slot that is not in use, with its base in a frame that is not. -/
theorem openContext (h : Holds slot place t.settled a) (ht : t.Tidy) {parent : Option ContextId}
    (hp : ∀ p, parent = some p → t.settled.Live p) :
    ∃ place' : ScopeId → ScopeId, (∀ s ∈ t.scopes, place' s = place s) ∧
      (a.openContext (parent.map slot)).2.dropped = a.dropped ∧
      Holds (Function.update slot ⟨t.state.contexts.size⟩ (a.openContext (parent.map slot)).1)
        place' (t.addContext ⟨t.state.contexts.size⟩ (t.state.newContext parent).2)
        (a.openContext (parent.map slot)).2 := by
  have hlt : ∀ d, t.settled.Live d → d.index < t.state.contexts.size :=
    fun d hd => ht.lt_of_live (live_of_settled hd)
  have hin : ∀ p, parent.map slot = some p → a.InUse p := by
    intro p he
    obtain ⟨q, hq, rfl⟩ := Option.map_eq_some_iff.mp he
    exact h.inUse q (hp q hq)
  obtain ⟨hexact, base, hadds⟩ := Arena.openContext_spec h.exact (parent.map slot) hin
  have hchain : ∀ d : ContextId, d.index < t.state.contexts.size →
      (t.state.newContext parent).2.chain d = t.state.chain d := by
    intro d hd
    rw [t.state.chain_newContext, if_neg (Nat.ne_of_lt hd)]
  have hself : (t.state.newContext parent).2.chain ⟨t.state.contexts.size⟩ =
      { scopes := [⟨t.state.frames.size⟩], parent := parent } := by
    rw [t.state.chain_newContext, if_pos rfl]
  have hlive := live_addContext (c := ⟨t.state.contexts.size⟩) ht hchain
    (fun p hq => hp p (by rwa [hself] at hq))
  have hframe : ∀ s, (t.state.newContext parent).2.frame s = t.state.frame s := t.state.frame_push
  have hmentions : (t.addContext ⟨t.state.contexts.size⟩ (t.state.newContext parent).2).mentions
      (Function.update slot ⟨t.state.contexts.size⟩ (a.openContext (parent.map slot)).1) =
      t.settled.mentions slot :=
    List.map_congr_left fun n hn => update_of_lt (ht.settled.closureAt_lt hn)
  refine ⟨Function.update place ⟨t.state.frames.size⟩ base,
    fun s hs => update_scope_of_lt (ht.scope_lt s hs), hadds.dropped, ?_⟩
  refine h.add hadds (by rw [hmentions]; exact hexact) (fun d hd => update_of_lt (hlt d hd))
    (Function.update_self ..) ht.settled.not_live_new hlive (fun d hd => hchain d (hlt d hd))
    (fun d hd s hs => ⟨update_scope_of_lt (ht.stack_lt d s hs), hframe s⟩) ?_ ?_
    (fun d hd => ?_) ?_ ?_ ?_
  · show [base] = List.map _ ((t.state.newContext parent).2.chain _).scopes
    rw [hself]
    simp
  · show _ = Option.map _ ((t.state.newContext parent).2.chain _).parent
    rw [hself]
    cases parent with
    | none => rfl
    | some p => exact congrArg some (update_of_lt (hlt p (hp p rfl))).symm
  · rw [stacked_addContext ht]
    refine ⟨fun hst => hst.resolve_left ?_, .inr⟩
    rintro rfl
    exact ht.settled.not_live_new hd
  · exact iff_of_true rfl ((stacked_addContext ht _).mpr (.inl rfl))
  · intro s hs
    change s ∈ ((t.state.newContext parent).2.chain _).scopes at hs
    rw [hself, List.mem_singleton] at hs
    subst hs
    rw [Function.update_self, hadds.values_new _ List.mem_cons_self]
    show [] = (t.state.newContext parent).2.frame _
    rw [hframe]
    simp [Archive.frame]
  · intro d hd s hs r hr heq
    change s ∈ ((t.state.newContext parent).2.chain _).scopes at hs
    change r ∈ ((t.state.newContext parent).2.chain _).scopes at hr
    rw [hself, List.mem_singleton] at hs
    subst hs
    rcases (hlive d).mp hd with rfl | hd
    · rw [hself, List.mem_singleton] at hr
      exact hr.symm
    · rw [hchain d (hlt d hd)] at hr
      rw [Function.update_self, update_scope_of_lt (ht.stack_lt d r hr)] at heq
      have huse := h.place_inUse hd hr
      rw [← heq] at huse
      exact absurd huse (hadds.frame_fresh base List.mem_cons_self)

/-- The chain of a live context is frozen in a slot that is not in use. -/
theorem freeze (h : Holds slot place t.settled a) (ht : t.Tidy) {c : ContextId}
    (hc : t.settled.Live c) :
    (a.freeze (slot c)).2.dropped = a.dropped ∧
      Holds (Function.update slot ⟨t.state.contexts.size⟩ (a.freeze (slot c)).1) place
        (t.addClosure ⟨t.state.contexts.size⟩ (t.state.capture c).2) (a.freeze (slot c)).2 := by
  have hlt : ∀ d, t.settled.Live d → d.index < t.state.contexts.size :=
    fun d hd => ht.lt_of_live (live_of_settled hd)
  obtain ⟨hexact, hadds⟩ := Arena.freeze_spec h.exact (slot c)
  have hchain : ∀ d : ContextId, d.index < t.state.contexts.size →
      (t.state.capture c).2.chain d = t.state.chain d := by
    intro d hd
    rw [t.state.chain_capture, if_neg (Nat.ne_of_lt hd)]
  have hself : (t.state.capture c).2.chain ⟨t.state.contexts.size⟩ = t.state.chain c := by
    rw [t.state.chain_capture, if_pos rfl]
  have hlive := live_addClosure (c := ⟨t.state.contexts.size⟩) ht hchain
    (fun p hq => hc.parent (by rwa [hself] at hq))
  have hmentions : (t.addClosure ⟨t.state.contexts.size⟩ (t.state.capture c).2).mentions
      (Function.update slot ⟨t.state.contexts.size⟩ (a.freeze (slot c)).1) =
      (a.freeze (slot c)).1 :: t.settled.mentions slot := by
    refine List.cons_eq_cons.mpr ⟨?_, List.map_congr_left fun n hn => ?_⟩
    · beta_reduce
      rw [closureAt_addClosure_self, Function.update_self]
    · have hn' := List.mem_append_right t.queued hn
      rw [closureAt_addClosure (ht.held_lt n hn')]
      exact update_of_lt (ht.closureAt_lt hn')
  refine ⟨hadds.dropped, ?_⟩
  refine h.add hadds (by rw [hmentions]; exact hexact) (fun d hd => update_of_lt (hlt d hd))
    (Function.update_self ..) ht.settled.not_live_new hlive (fun d hd => hchain d (hlt d hd))
    (fun d hd s hs => ⟨rfl, rfl⟩) ?_ ?_ (fun d hd => Iff.rfl) ?_ ?_ ?_
  · show (a.context (slot c)).scopes = List.map _ ((t.state.capture c).2.chain _).scopes
    rw [hself]
    exact h.scopes c hc
  · show (a.context (slot c)).parent = Option.map _ ((t.state.capture c).2.chain _).parent
    rw [hself, h.parent c hc]
    cases hp : (t.settled.state.chain c).parent with
    | none =>
        rw [show (t.state.chain c).parent = none from hp]
        rfl
    | some p =>
        rw [show (t.state.chain c).parent = some p from hp]
        exact congrArg some (update_of_lt (hlt p (hc.parent hp))).symm
  · refine iff_of_false (by simp) ?_
    rintro ⟨n, hn, he⟩
    have hlt := ht.openedAt_lt hn
    rw [show t.openedAt n = _ from he] at hlt
    exact Nat.lt_irrefl _ hlt
  · intro s hs
    change s ∈ ((t.state.capture c).2.chain _).scopes at hs
    rw [hself] at hs
    rw [hadds.values_old _ List.not_mem_nil]
    exact h.values c hc s hs
  · intro d hd s hs r hr
    change s ∈ ((t.state.capture c).2.chain _).scopes at hs
    change r ∈ ((t.state.capture c).2.chain _).scopes at hr
    rw [hself] at hs
    rcases (hlive d).mp hd with rfl | hd
    · rw [hself] at hr
      exact h.place_inj c c hc hc s hs r hr
    · rw [hchain d (hlt d hd)] at hr
      exact h.place_inj c d hc hd s hs r hr

/-! ### Stacks -/

theorem restack (h : Holds slot place t a) {w : Archive} {c : ContextId} {l names : List ScopeId}
    {place' : ScopeId → ScopeId} (hc : t.Live c)
    (hexact : b.Exact { mentions := t.mentions slot }) (huse : ∀ d, b.InUse d ↔ a.InUse d)
    (hctx : ∀ x, b.context x = if x = slot c then { a.context x with scopes := l.map place' }
      else a.context x)
    (hchain : ∀ d, w.chain d = if d = c then { t.state.chain c with scopes := l }
      else t.state.chain d)
    (hplace : ∀ d, t.Live d → ∀ s ∈ (t.state.chain d).scopes, place' s = place s)
    (hvalues : ∀ d, t.Live d → ∀ s ∈ (w.chain d).scopes, (b.frame (place' s)).values = w.frame s)
    (hinj : ∀ d e, t.Live d → t.Live e → ∀ s ∈ (w.chain d).scopes, ∀ r ∈ (w.chain e).scopes,
      place' s = place' r → s = r) :
    Holds slot place' { t with state := w, scopes := names } b := by
  have hparent : ∀ d, (w.chain d).parent = (t.state.chain d).parent := by
    intro d
    rw [hchain]
    split
    · rename_i he
      rw [he]
    · rfl
  have hagree : ∀ x, (b.context x).parent = (a.context x).parent ∧
      (b.context x).captured = (a.context x).captured := by
    intro x
    rw [hctx]
    split <;> exact ⟨rfl, rfl⟩
  have hlive := live_congr hparent names
  constructor
  case exact => exact hexact
  case inUse => exact fun d hd => (huse _).mpr (h.inUse d ((hlive d).mp hd))
  case onto =>
    intro x hx
    obtain ⟨d, hd, he⟩ := h.onto x ((huse x).mp hx)
    exact ⟨d, (hlive d).mpr hd, he⟩
  case slot_inj => exact fun d e hd he => h.slot_inj d e ((hlive d).mp hd) ((hlive e).mp he)
  case scopes =>
    intro d hd
    have hd := (hlive d).mp hd
    rw [hctx]
    show _ = List.map place' (w.chain d).scopes
    rw [hchain]
    by_cases he : d = c
    · rw [if_pos (by rw [he]), if_pos he]
    · rw [if_neg fun hs => he (h.slot_inj d c hd hc hs), if_neg he, h.scopes d hd]
      exact List.map_congr_left fun s hs => (hplace d hd s hs).symm
  case parent =>
    intro d hd
    rw [(hagree _).1, h.parent d ((hlive d).mp hd), ← hparent]
  case stacked =>
    intro d hd
    rw [(hagree _).2]
    exact h.stacked d ((hlive d).mp hd)
  case values => exact fun d hd => hvalues d ((hlive d).mp hd)
  case place_inj => exact fun d e hd he => hinj d e ((hlive d).mp hd) ((hlive e).mp he)

theorem pushScope (h : Holds slot place t a) (ht : t.Tidy) {c : ContextId} (hc : t.Live c)
    (hst : t.Stacked c) :
    Holds slot (Function.update place ⟨t.state.frames.size⟩ (a.pushScope (slot c)).1)
      (t.addScope ⟨t.state.frames.size⟩ (t.state.pushScope c).2) (a.pushScope (slot c)).2 := by
  have hin := h.inUse c hc
  have hcap := (h.stacked c hc).mpr hst
  have hchain := t.state.chain_pushScope (ht.lt_of_live hc)
  have hold : ∀ d, ∀ s ∈ (t.state.chain d).scopes,
      Function.update place ⟨t.state.frames.size⟩ (a.pushScope (slot c)).1 s = place s :=
    fun d s hs => update_scope_of_lt (ht.stack_lt d s hs)
  have hframe : ∀ s, (t.state.pushScope c).2.frame s = t.state.frame s := t.state.frame_push
  -- a scope of the new archive is the new one, or one of a live context before
  have hmem : ∀ d, t.Live d → ∀ s ∈ ((t.state.pushScope c).2.chain d).scopes,
      s = ⟨t.state.frames.size⟩ ∨ s ∈ (t.state.chain d).scopes := by
    intro d _ s hs
    rw [hchain] at hs
    split at hs
    · rename_i he
      rw [he]
      exact List.mem_cons.mp hs
    · exact .inr hs
  have hne : ∀ d, t.Live d → ∀ s ∈ (t.state.chain d).scopes,
      place s ≠ (a.pushScope (slot c)).1 := by
    intro d hd s hs he
    exact Arena.pushScope_fresh (he ▸ h.place_inUse hd hs)
  refine h.restack (l := ⟨t.state.frames.size⟩ :: (t.state.chain c).scopes) hc
    (Arena.pushScope_exact h.exact hin hcap) Arena.inUse_pushScope (fun x => ?_) hchain
    (fun d _ s hs => hold d s hs) (fun d hd s hs => ?_) fun d e hd he s hs r hr heq => ?_
  · rw [Arena.context_pushScope hin]
    split
    · rename_i he
      rw [he, List.map_cons, Function.update_self, List.map_congr_left (hold c), ← h.scopes c hc]
    · rfl
  · rw [Arena.frame_pushScope h.exact, hframe]
    rcases hmem d hd s hs with rfl | hs
    · rw [Function.update_self, if_pos rfl]
      simp [Archive.frame]
    · rw [hold d s hs, if_neg (hne d hd s hs)]
      exact h.values d hd s hs
  · rcases hmem d hd s hs with rfl | hs <;> rcases hmem e he r hr with rfl | hr
    · rfl
    · rw [Function.update_self, hold e r hr] at heq
      exact absurd heq.symm (hne e he r hr)
    · rw [Function.update_self, hold d s hs] at heq
      exact absurd heq (hne d hd s hs)
    · rw [hold d s hs, hold e r hr] at heq
      exact h.place_inj d e hd he s hs r hr heq

theorem popScope (h : Holds slot place t a) (ht : t.Tidy) {c : ContextId} (hc : t.Live c)
    (hst : t.Stacked c) {s : ScopeId} {rest : List ScopeId}
    (hs : (t.state.chain c).scopes = s :: rest) :
    Holds slot place { t with state := t.state.setScopes c rest }
      (a.dropScope (slot c) (place s)) := by
  have hin := h.inUse c hc
  have hcap := (h.stacked c hc).mpr hst
  have hscopes : (a.context (slot c)).scopes = place s :: rest.map place := by
    rw [h.scopes c hc, hs, List.map_cons]
  have hchain := t.state.chain_setScopes (ht.lt_of_live hc) rest
  have hmem : ∀ d, t.Live d → ∀ r ∈ ((t.state.setScopes c rest).chain d).scopes,
      r ∈ (t.state.chain d).scopes := by
    intro d _ r hr
    rw [hchain] at hr
    split at hr
    · rename_i he
      rw [he, hs]
      exact List.mem_cons_of_mem _ hr
    · exact hr
  have hexact : (a.dropScope (slot c) (place s)).Exact _ :=
    Arena.dropScope_exact h.exact hin hcap hscopes
  have hctx : ∀ x, (a.dropScope (slot c) (place s)).context x =
      if x = slot c then { a.context x with scopes := rest.map place } else a.context x := by
    intro x
    rw [Arena.context_dropScope hin]
    split
    · rename_i he
      rw [he, hscopes, List.tail_cons]
    · rfl
  refine h.restack (l := rest) hc hexact Arena.inUse_dropScope hctx hchain (fun _ _ _ _ => rfl)
    (fun d hd r hr => ?_) fun d e hd he r hr q hq =>
      h.place_inj d e hd he r (hmem d hd r hr) q (hmem e he q hq)
  have hlt := h.exact.scope_lt (slot c) (place s) (by rw [hscopes]; exact List.mem_cons_self)
  have hframe : (a.dropScope (slot c) (place s)).FrameInUse (place r) := by
    refine hexact.scope_inUse (c := slot d) ?_
    rw [hctx]
    rw [hchain] at hr
    by_cases he : d = c
    · rw [if_pos (by rw [he])]
      rw [if_pos he] at hr
      exact List.mem_map_of_mem hr
    · rw [if_neg fun hs => he (h.slot_inj d c hd hc hs), h.scopes d hd]
      rw [if_neg he] at hr
      exact List.mem_map_of_mem hr
  have hvalues := (Arena.frame_dropScope hlt hexact hframe).2.resolve_right fun hempty =>
    Arena.not_empties_none hempty.2.1
  rw [hvalues]
  exact h.values d hd r (hmem d hd r hr)

/-! ### Variables -/

/-- A variable of a live context is bound in both. -/
theorem bind (h : Holds slot place t a) (ht : t.Tidy) {c : ContextId} (hc : t.Live c) {s : ScopeId}
    (hs : s ∈ (t.state.chain c).scopes) (name : String) (v : Value) (m : Memory) :
    Holds slot place { t with state := { t.state.bind s name v with memory := m } }
      (a.bind (place s) name v) := by
  have hlt := (h.place_inUse hc hs).1
  have hlive := live_congr (t := t) (w := { t.state.bind s name v with memory := m })
    (fun _ => rfl) t.scopes
  refine
    { exact := Arena.bind_exact h.exact hlt name v
      inUse := fun d hd => h.inUse d ((hlive d).mp hd)
      onto := fun x hx => ?_
      slot_inj := fun d e hd he => h.slot_inj d e ((hlive d).mp hd) ((hlive e).mp he)
      scopes := fun d hd => h.scopes d ((hlive d).mp hd)
      parent := fun d hd => h.parent d ((hlive d).mp hd)
      stacked := fun d hd => h.stacked d ((hlive d).mp hd)
      values := fun d hd r hr => ?_
      place_inj := fun d e hd he => h.place_inj d e ((hlive d).mp hd) ((hlive e).mp he) }
  · obtain ⟨d, hd, he⟩ := h.onto x hx
    exact ⟨d, (hlive d).mpr hd, he⟩
  · have hd := (hlive d).mp hd
    have hr : r ∈ (t.state.chain d).scopes := hr
    show _ = (t.state.bind s name v).frame r
    rw [Arena.values_bind hlt, t.state.frame_bind (ht.stack_lt c s hs)]
    by_cases he : r = s
    · rw [if_pos (by rw [he]), if_pos he, h.values c hc s hs]
    · rw [if_neg fun hp => he (h.place_inj d c hd hc r hr s hs hp), if_neg he]
      exact h.values d hd r hr

/-- Searches go the same way in both. -/
theorem getFrom?_eq (h : Holds slot place t a) (name : String) : ∀ (n : Nat) {c : ContextId},
    t.Live c → a.getFrom? name n (slot c) = t.state.getFrom? name n c
  | 0, _, _ => rfl
  | n + 1, c, hc => by
      have hfound : (a.context (slot c)).scopes.findSome? (fun s => (a.frame s).values.get? name) =
          (t.state.chain c).scopes.findSome? fun s => (t.state.frame s).get? name := by
        have hmap : (t.state.chain c).scopes.map (fun s => (a.frame (place s)).values.get? name) =
            (t.state.chain c).scopes.map fun s => (t.state.frame s).get? name :=
          List.map_congr_left fun s hs => by rw [h.values c hc s hs]
        have hid := congrArg (List.findSome? id) hmap
        rw [List.findSome?_map, List.findSome?_map] at hid
        rw [h.scopes c hc, List.findSome?_map]
        exact hid
      simp only [Arena.getFrom?, Archive.getFrom?, hfound, h.parent c hc]
      cases (t.state.chain c).scopes.findSome? fun s => (t.state.frame s).get? name with
      | some v => rfl
      | none =>
          cases hp : (t.state.chain c).parent with
          | none => rfl
          | some p => exact getFrom?_eq h name n (hc.parent hp)

/-- A look-up finds the same in both. -/
theorem get?_eq (h : Holds slot place t a) (ht : t.Tidy) (name : String) {c : ContextId}
    (hc : t.Live c) : a.get? (slot c) name = t.state.getFrom? name (c.index + 1) c := by
  -- with enough fuel for both, both have come to their end
  have hm : a.contexts.size < max (a.contexts.size + 1) (c.index + 1) := by omega
  rw [← h.exact.getFrom?_eq_get? name (slot c) hm, h.getFrom?_eq name _ hc]
  exact t.state.getFrom?_of_lt ht.parent_lt name (c.index + 1) c (by omega) _ (by omega)

theorem baseBindings_eq (h : Holds slot place t a) {c : ContextId} (hc : t.Live c) :
    a.baseBindings (slot c) = t.state.baseBindings c := by
  unfold Arena.baseBindings Archive.baseBindings
  rw [h.scopes c hc, List.getLast?_map]
  cases hl : (t.state.chain c).scopes.getLast? with
  | none => rfl
  | some s => exact h.values c hc s (List.mem_of_getLast? hl)

theorem scopeCount_eq (h : Holds slot place t a) {c : ContextId} (hc : t.Live c) :
    a.scopeCount (slot c) = t.state.scopeCount c := by
  unfold Arena.scopeCount Archive.scopeCount
  rw [h.scopes c hc, List.length_map]

theorem newPlace_eq {s : Store} (h : Holds slot place t s.scopes) (ht : t.Tidy) (name : String)
    {c : ContextId} (hc : t.Live c) :
    s.newPlace (slot c) name = (t.state.newPlace c name).map place ∧
      (∀ r, t.state.newPlace c name = .ok r → r ∈ (t.state.chain c).scopes) ∧
      ∀ f, t.state.newPlace c name ≠ .error (.unbalanced f) := by
  obtain ⟨r, rest, hr⟩ := List.exists_cons_of_ne_nil (ht.stack_ne_nil (ht.lt_of_live hc))
  have hscopes := h.scopes c hc
  rw [hr, List.map_cons] at hscopes
  unfold Store.newPlace Archive.newPlace Arena.innermost
  rw [hscopes, hr]
  split <;> simp [Except.map]

theorem place_eq {s : Store} (h : Holds slot place t s.scopes) (ht : t.Tidy)
    (hmem : s.memory = t.state.memory) (name : String) (v : Value) {c : ContextId} (hc : t.Live c) :
    s.place (slot c) name v = (t.state.place c name v).map place ∧
      (∀ r, t.state.place c name v = .ok r → r ∈ (t.state.chain c).scopes) ∧
      ∀ f, t.state.place c name v ≠ .error (.unbalanced f) := by
  have hfind : s.scopes.binder? (s.scopes.context (slot c)).scopes name =
      ((t.state.chain c).scopes.find? fun r => (t.state.frame r).has name).map place := by
    unfold Arena.binder?
    rw [h.scopes c hc, List.find?_map]
    refine congrArg _ (List.find?_congr fun r hr => ?_)
    rw [Function.comp_apply, h.values c hc r hr]
  unfold Store.place Archive.place
  rw [hfind, hmem]
  split
  · simp [Except.map]
  · cases hb : (t.state.chain c).scopes.find? fun r => (t.state.frame r).has name with
    | none => exact h.newPlace_eq ht name hc
    | some r =>
        have hr := List.mem_of_find?_eq_some hb
        simp only [Option.map_some, h.values c hc r hr]
        split <;> simp [Except.map, hr]

end Holds

end Classlet.Session
