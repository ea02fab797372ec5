import Classlet.Proofs.Scope.Exact

/-! # Giving up mentions

Giving up the last mention of a frozen context frees it, takes its pins off, and gives up its
mention of the parent, and so on up the chain.  `releaseFrom_exact` follows such a cascade: the
arena is exact after every step, so that no count is overdrawn, and what is in use afterwards was
in use before and is as it was (`Arena.Survives`).  Only a frame that nothing but dropped closures
mention can have been emptied meanwhile (`Arena.Doomed`).

The fuel of the cascade is enough: every step but the last frees a slot, and there are not more
free slots than slots. -/

namespace Classlet

/-- Contexts that differ at most in the number of their mentions. -/
structure Context.Agrees (x y : Context) : Prop where
  scopes : x.scopes = y.scopes
  parent : x.parent = y.parent
  captured : x.captured = y.captured

theorem Context.Agrees.refl (x : Context) : x.Agrees x := ⟨rfl, rfl, rfl⟩

theorem Context.Agrees.trans {x y z : Context} (h₁ : x.Agrees y) (h₂ : y.Agrees z) : x.Agrees z :=
  ⟨h₁.scopes.trans h₂.scopes, h₁.parent.trans h₂.parent, h₁.captured.trans h₂.captured⟩

namespace Arena

variable {α : Type} {a b : Arena α} {k : Holdings}

/-! ### Emptied frames -/

/-- Only dropped closures mention a frame, and nothing else mentions those. -/
def Doomed (a : Arena α) (s : ScopeId) : Prop :=
  ∀ c, s ∈ (a.context c).scopes →
    (a.context c).captured ∧ c ∈ a.dropped ∧ (a.context c).refs ≤ 1

/-- A frame that is pinned by closures only that are bound in it is doomed. -/
theorem Spent.doomed {closure? : α → Option ContextId} {s : ScopeId} (h : a.Spent closure? s)
    (hpins : a.count (pinsScope s) ≤ (a.frame s).pins) (hstack : a.count (stacksScope s) = 0) :
    a.Doomed s := by
  let bound := (a.frame s).values.filterMap fun entry => closure? entry.2
  let own := bound.filter fun c => a.dropped.contains c && bound.count c == 1 &&
    (a.context c).captured && (a.context c).refs == 1 && (a.context c).scopes.contains s
  have hmem : ∀ c ∈ own, bound.count c = 1 ∧ (a.context c).captured ∧ c ∈ a.dropped ∧
      (a.context c).refs = 1 ∧ s ∈ (a.context c).scopes := by
    intro c hc
    have hcond := (List.mem_filter.mp hc).2
    simp only [Bool.and_eq_true, List.contains_iff_mem, beq_iff_eq] at hcond
    obtain ⟨⟨⟨⟨hdropped, hcount⟩, hcap⟩, hrefs⟩, hscope⟩ := hcond
    exact ⟨hcount, hcap, hdropped, hrefs, hscope⟩
  have hnodup : own.Nodup := by
    refine List.nodup_iff_count_le_one.mpr fun c => ?_
    by_cases hc : c ∈ own
    · exact (hmem c hc).1 ▸ List.filter_sublist.count_le c
    · exact Nat.le_trans (Nat.le_of_eq (List.count_eq_zero.mpr hc)) (Nat.zero_le 1)
  have hlength : own.length = (a.frame s).pins := by
    rw [h.2.2]
    exact List.countP_eq_length_filter.symm
  intro c hc
  have hcap : (a.context c).captured = true := by
    by_contra hopen
    have hcount : 0 < a.count (stacksScope s) :=
      a.count_pos (c := c) (by simp [stacksScope, hopen, hc]) (stacksScope_empty s)
    omega
  -- the pins that are counted are all there are
  have hin : c ∈ own := by
    by_contra hout
    have hle : (c :: own).length ≤ a.count (pinsScope s) := by
      refine length_le_count (pinsScope_empty s) (List.nodup_cons.mpr ⟨hout, hnodup⟩) ?_
      intro d hd
      rcases List.mem_cons.mp hd with rfl | hd
      · simp [pinsScope, hcap, hc]
      · obtain ⟨-, hcap', -, -, hd'⟩ := hmem d hd
        simp [pinsScope, hcap', hd']
    rw [List.length_cons] at hle
    omega
  obtain ⟨-, -, hdropped, hrefs, -⟩ := hmem c hin
  exact ⟨hcap, hdropped, Nat.le_of_eq hrefs⟩

/-- Whether any value is a closure. -/
def Empties (closure? : α → Option ContextId) : Prop := ∃ v, (closure? v).isSome

theorem not_empties_none : ¬ Empties fun _ : α => none := fun ⟨_, h⟩ => nomatch h

theorem Spent.empties {closure? : α → Option ContextId} {s : ScopeId}
    (h : a.Spent closure? s) : Empties closure? := by
  obtain ⟨-, hpins, hself⟩ := h
  rw [hself, selfPins] at hpins
  obtain ⟨c, hc, -⟩ := List.countP_pos_iff.mp (Nat.pos_of_ne_zero hpins)
  obtain ⟨entry, -, hentry⟩ := List.mem_filterMap.mp hc
  exact ⟨entry.2, Option.isSome_of_mem hentry⟩

/-! ### What survives -/

/-- The variables of a frame are as they were, or were taken out since only closures that are bound
in the frame mention it. -/
def FrameSurvives (closure? : α → Option ContextId) (a b : Arena α) (s : ScopeId) : Prop :=
  (b.frame s).values = (a.frame s).values ∨
    ((b.frame s).values = [] ∧ Empties closure? ∧ b.Doomed s)

theorem FrameSurvives.mem_values {closure? : α → Option ContextId} {b : Arena α} {s : ScopeId}
    {p : String × α} (h : FrameSurvives closure? a b s) (hp : p ∈ (b.frame s).values) :
    p ∈ (a.frame s).values := by
  obtain hvalues | ⟨hempty, -⟩ := h
  · exact hvalues ▸ hp
  · rw [hempty] at hp
    cases hp

/-- What is in use in `b` was in use in `a` and is as it was.  Of the contexts that are not frozen
at most those in `lost` are gone. -/
structure Survives (closure? : α → Option ContextId) (lost : List ContextId) (a b : Arena α) :
    Prop where
  inUse : ∀ c, b.InUse c → a.InUse c
  context : ∀ c, b.InUse c → (b.context c).Agrees (a.context c)
  /-- A context has no more mentions than before. -/
  refs : ∀ c, (b.context c).refs ≤ (a.context c).refs
  opened : ∀ c, a.InUse c → (a.context c).captured = false → c ∉ lost → b.InUse c
  frame : ∀ s, b.FrameInUse s → a.FrameInUse s ∧ FrameSurvives closure? a b s
  dropped : b.dropped = a.dropped

variable {closure? : α → Option ContextId}

namespace Survives

theorem refl (a : Arena α) : Survives closure? [] a a :=
  ⟨fun _ h => h, fun _ _ => .refl _, fun _ => Nat.le_refl _, fun _ h _ _ => h,
    fun _ h => ⟨h, .inl rfl⟩, rfl⟩

/-- A frame stays doomed as long as nothing new mentions it. -/
theorem doomed {lost : List ContextId} (h : Survives closure? lost a b) (hb : b.Orderly)
    {s : ScopeId} (hs : a.Doomed s) : b.Doomed s := by
  intro c hc
  have hin : b.InUse c := by
    by_contra hn
    rw [hb.context_of_not_inUse hn] at hc
    cases hc
  have hagree := h.context c hin
  obtain ⟨hcap, hdropped, hrefs⟩ := hs c (hagree.scopes ▸ hc)
  exact ⟨hagree.captured.trans hcap, h.dropped ▸ hdropped, Nat.le_trans (h.refs c) hrefs⟩

theorem trans {l : List ContextId} {a b c : Arena α} (hc : c.Orderly)
    (h₁ : Survives closure? l a b) (h₂ : Survives closure? [] b c) : Survives closure? l a c := by
  refine ⟨fun d hd => h₁.inUse d (h₂.inUse d hd), ?_,
    fun d => Nat.le_trans (h₂.refs d) (h₁.refs d), ?_, ?_, h₂.dropped.trans h₁.dropped⟩
  · exact fun d hd => (h₂.context d hd).trans (h₁.context d (h₂.inUse d hd))
  · intro d hd hcap hl
    have hb := h₁.opened d hd hcap hl
    exact h₂.opened d hb ((h₁.context d hb).captured.trans hcap) List.not_mem_nil
  · intro s hs
    obtain ⟨hb, hv₂⟩ := h₂.frame s hs
    obtain ⟨ha, hv₁⟩ := h₁.frame s hb
    refine ⟨ha, ?_⟩
    rcases hv₂ with hv₂ | hempty
    · rcases hv₁ with hv₁ | ⟨hv₁, hempties, hdoomed⟩
      · exact .inl (hv₂.trans hv₁)
      · exact .inr ⟨hv₂.trans hv₁, hempties, h₂.doomed hc hdoomed⟩
    · exact .inr hempty

theorem values {lost : List ContextId} {a b : Arena α} (h : Survives (fun _ => none) lost a b)
    {s : ScopeId} (hs : b.FrameInUse s) : (b.frame s).values = (a.frame s).values :=
  (h.frame s hs).2.resolve_right fun hempty => not_empties_none hempty.2.1

end Survives

/-! ### Frames -/

/-- A frame that is still in use after it was collected has its values, or was emptied. -/
theorem frame_survives {s t : ScopeId} {f : Frame α → Frame α} (hs : s.index < a.frames.size)
    (hexact : ((a.modifyFrame s f).collectFrame s closure?).Exact k)
    (ht : ((a.modifyFrame s f).collectFrame s closure?).FrameInUse t)
    (hf : ∀ x, (f x).values = x.values) :
    a.FrameInUse t ∧ FrameSurvives closure? a ((a.modifyFrame s f).collectFrame s closure?) t := by
  have hs' : s.index < (a.modifyFrame s f).frames.size := by simpa using hs
  have hbusy : ¬ (t = s ∧ (a.modifyFrame s f).Idle s) := fun hi =>
    ht.2 (mem_freeFrames_collectFrame.mpr (.inl hi))
  have hvalues : ((a.modifyFrame s f).frame t).values = (a.frame t).values := by
    rw [a.frame_modifyFrame hs]
    split
    · rename_i he
      rw [hf, he]
    · rfl
  refine ⟨⟨by simpa using ht.1, fun h => ht.2 (mem_freeFrames_collectFrame.mpr (.inr h))⟩, ?_⟩
  rcases frame_collectFrame hs' closure? t with hkept | ⟨rfl, hidle | hspent, hempty⟩
  · exact .inl ((congrArg Frame.values hkept).trans hvalues)
  · exact absurd ⟨rfl, hidle⟩ hbusy
  · have hcount : ∀ p, ((a.modifyFrame t f).collectFrame t closure?).count p =
        (a.modifyFrame t f).count p := count_congr (by simp)
    have hlt : t.index < ((a.modifyFrame t f).collectFrame t closure?).frames.size := by simpa
    have hpins := hexact.pins_eq t hlt
    rw [hcount, pins_collectFrame hs'] at hpins
    have hlive := hexact.live_eq t hlt
    rw [hcount, live_collectFrame hs', hspent.1, if_neg Bool.false_ne_true] at hlive
    have hdoomed := hspent.doomed (by omega) (by omega)
    refine .inr ⟨congrArg Frame.values hempty, hspent.empties, fun c hc => ?_⟩
    rw [context_collectFrame] at hc ⊢
    rw [collectFrame_dropped]
    exact hdoomed c hc

theorem unpin_survives {s : ScopeId} (hs : s.index < a.frames.size)
    (hb : b.Exact k) (h : a.unpin s closure? = .ok b) :
    Survives closure? [] a b ∧ b.contexts = a.contexts ∧ b.freeContexts = a.freeContexts := by
  unfold unpin at h
  split at h
  · cases h
  · cases h
    refine ⟨⟨?_, ?_, ?_, ?_, fun t ht => frame_survives hs hb ht fun _ => rfl, by simp⟩, by simp,
      by simp⟩
    · exact fun c h => by simpa [InUse] using h
    · exact fun c _ => by simpa using Context.Agrees.refl _
    · exact fun c => by simp
    · exact fun c h _ _ => by simpa [InUse] using h

theorem unpinAll_exact {ps : List ScopeId} : ∀ {l : List ScopeId} {a : Arena α},
    a.Exact { k with pins := l ++ ps } →
      ∃ b, a.unpinAll l closure? = .ok b ∧ b.Exact { k with pins := ps } ∧
        Survives closure? [] a b ∧ b.contexts = a.contexts ∧ b.freeContexts = a.freeContexts
  | [], a, h => ⟨a, rfl, h, .refl a, rfl, rfl⟩
  | s :: l, a, h => by
      obtain ⟨a', hu, h'⟩ := h.unpin (k := { k with pins := l ++ ps })
      obtain ⟨hs, hc, hf⟩ := unpin_survives (h.pin_lt s List.mem_cons_self) h' hu
      obtain ⟨b, hb, hexact, hs', hc', hf'⟩ := unpinAll_exact h'
      refine ⟨b, ?_, hexact, hs.trans hexact.orderly hs', hc'.trans hc, hf'.trans hf⟩
      rw [unpinAll, hu]
      exact hb

/-! ### Contexts -/

theorem setContext_survives {c : ContextId} {x : Context} (hc : a.InUse c)
    (hx : x.Agrees (a.context c)) (hrefs : x.refs ≤ (a.context c).refs) :
    Survives closure? [] a (a.setContext c x) := by
  have hctx := a.context_setContext hc.1 x
  refine ⟨by simp, fun d _ => ?_, fun d => ?_, fun d hd _ _ => by simpa using hd,
    fun s hs => ⟨hs, .inl rfl⟩, rfl⟩
  · rw [hctx]
    split
    · rename_i he
      rw [he]
      exact hx
    · exact .refl _
  · rw [hctx]
    split
    · rename_i he
      rw [he]
      exact hrefs
    · exact Nat.le_refl _

theorem freeContext_survives {c : ContextId} (hc : a.InUse c) :
    Survives closure? [c] a (a.freeContext c) := by
  refine ⟨fun d hd => ((inUse_freeContext c d).mp hd).2, fun d hd => ?_, fun d => ?_, ?_,
    fun s hs => ⟨hs, .inl rfl⟩, rfl⟩
  · rw [hc.context_freeContext, if_neg ((inUse_freeContext c d).mp hd).1]
    exact .refl _
  · rw [hc.context_freeContext]
    split
    · exact Nat.zero_le _
    · exact Nat.le_refl _
  · exact fun d hd _ hl => (inUse_freeContext c d).mpr ⟨fun he => hl (by simp [he]), hd⟩

theorem freeContext_captured_survives {c : ContextId} (hc : a.InUse c)
    (hcap : (a.context c).captured) : Survives closure? [] a (a.freeContext c) := by
  have h : Survives closure? [c] a (a.freeContext c) := freeContext_survives hc
  refine { h with opened := fun d hd hd' _ => h.opened d hd hd' ?_ }
  simp only [List.mem_singleton]
  rintro rfl
  rw [hcap] at hd'
  cases hd'

/-- **A mention is given up**, and with it what nothing else mentions. -/
theorem releaseFrom_exact : ∀ (fuel : Nat) {a : Arena α} {c : ContextId} {ms : List ContextId},
    a.Exact { k with mentions := c :: ms } →
    a.contexts.size < fuel + a.freeContexts.length →
      ∃ b, releaseFrom fuel a c closure? = .ok b ∧ b.Exact { k with mentions := ms } ∧
        Survives closure? [] a b
  | 0, a, c, ms, h, hfuel => by
      have := h.orderly.length_freeContexts_le
      omega
  | fuel + 1, a, c, ms, h, hfuel => by
      cases hcap : (a.context c).captured with
      | false =>
          refine ⟨a, by simp [releaseFrom, hcap], ?_, .refl a⟩
          refine h.congr_mentions (fun d hd => h.mention_inUse d (List.mem_cons_of_mem _ hd)) ?_
          intro d hd
          refine (List.count_cons_of_ne ?_).symm
          rintro rfl
          rw [hcap] at hd
          cases hd
      | true =>
          have hpos := h.refs_pos c hcap
          have hne : (a.context c).refs ≠ 0 := by omega
          rcases Nat.lt_or_ge 1 (a.context c).refs with hmany | hlast
          · exact ⟨_, by simp [releaseFrom, hcap, hne, hmany], h.unmention hcap hmany,
              setContext_survives (h.captured_inUse hcap) ⟨rfl, rfl, rfl⟩ (Nat.sub_le _ _)⟩
          · have hin := h.captured_inUse hcap
            obtain ⟨b, hb, hexact, hs, hc, hf⟩ := unpinAll_exact
              (k := { k with mentions := (a.context c).parent.toList ++ ms }) (h.thaw hcap hlast)
            have hsurv := (freeContext_captured_survives hin hcap).trans hexact.orderly hs
            have hlast' : ¬ 1 < (a.context c).refs := Nat.not_lt.mpr hlast
            cases hp : (a.context c).parent with
            | none =>
                rw [hp] at hexact
                refine ⟨b, ?_, hexact, hsurv⟩
                simp [releaseFrom, hcap, hne, hlast', hb, hp]
            | some p =>
                rw [hp] at hexact
                have hfuel' : b.contexts.size < fuel + b.freeContexts.length := by
                  rw [hc, hf, size_freeContext, freeContext_freeContexts, List.length_cons]
                  omega
                obtain ⟨b', hb', hexact', hs'⟩ := releaseFrom_exact fuel hexact hfuel'
                refine ⟨b', ?_, hexact', hsurv.trans hexact'.orderly hs'⟩
                simp [releaseFrom, hcap, hne, hlast', hb, hp, hb']

theorem release_exact {c : ContextId} {ms : List ContextId}
    (h : a.Exact { k with mentions := c :: ms }) :
    ∃ b, a.release c closure? = .ok b ∧ b.Exact { k with mentions := ms } ∧
      Survives closure? [] a b :=
  releaseFrom_exact _ h (by omega)

theorem releaseAll_exact {ms : List ContextId} : ∀ {l : List ContextId} {a : Arena α},
    a.Exact { k with mentions := l ++ ms } →
      ∃ b, a.releaseAll l = .ok b ∧ b.Exact { k with mentions := ms } ∧
        Survives (fun _ => none) [] a b
  | [], a, h => ⟨a, rfl, h, .refl a⟩
  | c :: l, a, h => by
      obtain ⟨a', ha, h', hs⟩ := release_exact (k := { k with mentions := l ++ ms }) h
      obtain ⟨b, hb, hexact, hs'⟩ := releaseAll_exact h'
      refine ⟨b, ?_, hexact, hs.trans hexact.orderly hs'⟩
      rw [releaseAll, ha]
      exact hb

end Arena

end Classlet
