import Classlet.Proofs.Scope.Release

/-! # The operations of an arena

One specification for each operation: that it keeps the arena exact, and what it does to contexts
and frames.  Nothing else about the operations is used elsewhere.

* `openContext` and `freeze` add a context in a slot that was not in use (`Arena.Adds`).
* `pushScope` and `dropScope` change the stack of one context.  A frame that was in use before and
  is in use afterwards has its variables, or was emptied.
* `releaseContext` and `reclaim` only give things up (`Arena.Survives`). -/

namespace Classlet.Arena

variable {α : Type} {a b : Arena α} {k : Holdings} {closure? : α → Option ContextId}

/-- Arenas that differ at most in their counts. -/
structure Alike (a b : Arena α) : Prop where
  inUse : ∀ c, b.InUse c ↔ a.InUse c
  context : ∀ c, (b.context c).Agrees (a.context c)
  frameInUse : ∀ s, b.FrameInUse s ↔ a.FrameInUse s
  values : ∀ s, (b.frame s).values = (a.frame s).values
  dropped : b.dropped = a.dropped

namespace Alike

theorem refl (a : Arena α) : Alike a a :=
  ⟨fun _ => .rfl, fun _ => .refl _, fun _ => .rfl, fun _ => rfl, rfl⟩

theorem trans {a b c : Arena α} (h₁ : Alike a b) (h₂ : Alike b c) : Alike a c :=
  ⟨fun d => (h₂.inUse d).trans (h₁.inUse d), fun d => (h₂.context d).trans (h₁.context d),
    fun s => (h₂.frameInUse s).trans (h₁.frameInUse s), fun s => (h₂.values s).trans (h₁.values s),
    h₂.dropped.trans h₁.dropped⟩

theorem retain {c : ContextId} (hc : a.InUse c) : Alike a (a.retain c) := by
  simp only [Arena.retain]
  split
  · refine ⟨fun d => by simp, fun d => ?_, fun _ => .rfl, fun _ => rfl, rfl⟩
    rw [a.context_setContext hc.1]
    split
    · rename_i he
      rw [he]
      exact ⟨rfl, rfl, rfl⟩
    · exact .refl _
  · exact .refl a

theorem pin {s : ScopeId} (hs : s.index < a.frames.size) :
    Alike a (a.modifyFrame s fun f => { f with pins := f.pins + 1 }) := by
  refine ⟨fun _ => .rfl, fun _ => .refl _, fun t => by simp [FrameInUse], fun t => ?_, rfl⟩
  rw [a.frame_modifyFrame hs]
  split
  · rename_i he
    rw [he]
  · rfl

end Alike

/-- A mention of the parent to come, if there is one, is held. -/
theorem Exact.retainAll (h : a.Exact k) {parent : Option ContextId}
    (hp : ∀ p, parent = some p → a.InUse p) :
    (a.retainAll parent).Exact { k with mentions := parent.toList ++ k.mentions } ∧
      Alike a (a.retainAll parent) := by
  cases parent with
  | none => exact ⟨h, .refl a⟩
  | some p => exact ⟨h.retain (hp p rfl), .retain (hp p rfl)⟩

/-- The mention of a parent is one of the mentions held for a context. -/
theorem count_parent_append {parent : Option ContextId} {ms : List ContextId} {x : Context}
    (d : ContextId) (hx : x.parent = parent) :
    (parent.toList ++ ms).count d = (if hasParent d x then 1 else 0) + ms.count d := by
  rw [List.count_append]
  cases parent with
  | none => simp [hasParent, hx]
  | some p => by_cases he : p = d <;> simp [hasParent, hx, he]

/-! ### Adding contexts -/

/-- The arena `b` is `a` with a new context like `x`, and with the new empty frames `news`. -/
structure Adds (a b : Arena α) (c : ContextId) (x : Context) (news : List ScopeId) : Prop where
  fresh : ¬ a.InUse c
  inUse : ∀ d, b.InUse d ↔ d = c ∨ a.InUse d
  context_new : (b.context c).Agrees x
  context_old : ∀ d, d ≠ c → (b.context d).Agrees (a.context d)
  frame_fresh : ∀ s ∈ news, ¬ a.FrameInUse s
  frameInUse : ∀ s, b.FrameInUse s ↔ s ∈ news ∨ a.FrameInUse s
  values_new : ∀ s ∈ news, (b.frame s).values = []
  values_old : ∀ s, s ∉ news → (b.frame s).values = (a.frame s).values
  dropped : b.dropped = a.dropped

theorem Adds.of_alike {a a' b : Arena α} {c : ContextId} {x : Context} {news : List ScopeId}
    (h : Alike a a') (h' : Adds a' b c x news) : Adds a b c x news where
  fresh hc := h'.fresh ((h.inUse c).mpr hc)
  inUse d := (h'.inUse d).trans (or_congr .rfl (h.inUse d))
  context_new := h'.context_new
  context_old d hd := (h'.context_old d hd).trans (h.context d)
  frame_fresh s hs hin := h'.frame_fresh s hs ((h.frameInUse s).mpr hin)
  frameInUse s := (h'.frameInUse s).trans (or_congr .rfl (h.frameInUse s))
  values_new := h'.values_new
  values_old s hs := (h'.values_old s hs).trans (h.values s)
  dropped := h'.dropped.trans h.dropped

theorem Orderly.adds_allocContext (ho : a.Orderly) (x : Context) :
    Adds a (a.allocContext x).2 (a.allocContext x).1 x [] where
  fresh := allocContext_fresh x
  inUse := ho.inUse_allocContext x
  context_new := by
    rw [ho.context_allocContext, if_pos rfl]
    exact .refl x
  context_old d hd := by
    rw [ho.context_allocContext, if_neg hd]
    exact .refl _
  frame_fresh s hs := by cases hs
  frameInUse s := by simp [FrameInUse]
  values_new s hs := by cases hs
  values_old s _ := by simp
  dropped := by simp

theorem Adds.of_allocFrame {a b : Arena α} {c : ContextId} {x : Context} (ho : a.Orderly)
    (h : Adds a.allocFrame.2 b c x []) : Adds a b c x [a.allocFrame.1] where
  fresh hc := h.fresh (by simpa [InUse] using hc)
  inUse d := (h.inUse d).trans (by simp [InUse])
  context_new := h.context_new
  context_old d hd := by simpa using h.context_old d hd
  frame_fresh s hs := by
    rw [List.mem_singleton.mp hs]
    exact allocFrame_fresh
  frameInUse s := by
    rw [h.frameInUse, ho.frameInUse_allocFrame]
    simp
  values_new s hs := by
    rw [List.mem_singleton.mp hs, h.values_old _ List.not_mem_nil, ho.frame_allocFrame]
    simp
  values_old s hs := by
    rw [h.values_old _ List.not_mem_nil, ho.frame_allocFrame, if_neg (by simpa using hs)]
  dropped := by simpa using h.dropped

theorem openContext_eq (parent : Option ContextId) :
    a.openContext parent =
      (a.retainAll parent).allocFrame.2.allocContext
        { scopes := [(a.retainAll parent).allocFrame.1], parent := parent } := rfl

theorem openContext_spec (h : a.Exact k) (parent : Option ContextId)
    (hp : ∀ p, parent = some p → a.InUse p) :
    (a.openContext parent).2.Exact k ∧ ∃ s,
      Adds a (a.openContext parent).2 (a.openContext parent).1
        { scopes := [s], parent := parent } [s] := by
  rw [openContext_eq]
  obtain ⟨hr, halike⟩ := h.retainAll hp
  have hf := hr.allocFrame
  have hin : ∀ p, parent = some p → (a.retainAll parent).allocFrame.2.InUse p := by
    intro p he
    simpa [InUse] using (halike.inUse p).mpr (hp p he)
  have hbase := hr.orderly.allocFrame_lt
  refine ⟨?_, (a.retainAll parent).allocFrame.1,
    .of_alike halike (.of_allocFrame hr.orderly (hf.orderly.adds_allocContext _))⟩
  generalize (a.retainAll parent).allocFrame.1 = base at hf hbase
  generalize (a.retainAll parent).allocFrame.2 = a' at hf hin hbase
  refine hf.of_allocContext (l := k) hin ?_ ?_ ?_ ?_ (List.nodup_singleton _) ?_ ?_ ?_
    (by simp) (by simp)
  · exact fun d hd => .inl (hf.mention_inUse d (List.mem_append_right _ hd))
  · intro s hs
    rw [List.mem_singleton.mp hs]
    exact hbase
  · exact hf.pin_lt
  · exact fun s hs => hf.loose_lt s (List.mem_cons_of_mem _ hs)
  · simp [pinsScope]
  · intro s
    by_cases he : s = base
    · simp [stacksScope, he]
      omega
    · simp [stacksScope, he, List.count_cons_of_ne (Ne.symm he)]
  · exact fun d _ => count_parent_append d rfl

/-- Pinning frames in use holds a pin for each. -/
theorem pinAll_spec : ∀ {l : List ScopeId} {a : Arena α} {k : Holdings}, a.Exact k →
    (∀ s ∈ l, a.FrameInUse s) →
      (l.foldl (fun a s => a.modifyFrame s fun f => { f with pins := f.pins + 1 }) a).Exact
          { k with pins := l.reverse ++ k.pins } ∧
        Alike a (l.foldl (fun a s => a.modifyFrame s fun f => { f with pins := f.pins + 1 }) a)
  | [], a, k, h, _ => ⟨h, .refl a⟩
  | s :: l, a, k, h, hl => by
      have hs := hl s List.mem_cons_self
      have halike : Alike a (a.modifyFrame s fun f => { f with pins := f.pins + 1 }) := .pin hs.1
      obtain ⟨h', halike'⟩ := pinAll_spec (h.pin hs) fun t ht =>
        (halike.frameInUse t).mpr (hl t (List.mem_cons_of_mem _ ht))
      refine ⟨?_, halike.trans halike'⟩
      simpa using h'

/-- Freezing a context adds a context with the same scopes. -/
theorem freeze_spec (h : a.Exact k) (c : ContextId) :
    (a.freeze c).2.Exact { k with mentions := (a.freeze c).1 :: k.mentions } ∧
      Adds a (a.freeze c).2 (a.freeze c).1
        { scopes := (a.context c).scopes, parent := (a.context c).parent, captured := true }
        [] := by
  have hscopes : ∀ s ∈ (a.context c).scopes.reverse, a.FrameInUse s :=
    fun s hs => h.scope_inUse (List.mem_reverse.mp hs)
  obtain ⟨h₁, hal₁⟩ := pinAll_spec h hscopes
  simp only [freeze]
  generalize (a.context c).scopes.reverse.foldl
    (fun a s => a.modifyFrame s fun f => { f with pins := f.pins + 1 }) a = a₁ at h₁ hal₁
  have hp : ∀ p, (a.context c).parent = some p → a₁.InUse p :=
    fun p he => (hal₁.inUse p).mpr (h.parent_inUse c p he)
  obtain ⟨h₂, hal₂⟩ := h₁.retainAll hp
  generalize ha₂ : a₁.retainAll (a.context c).parent = a₂ at h₂ hal₂
  have hlt : ∀ s ∈ (a.context c).scopes, s.index < a₂.frames.size := fun s hs =>
    h₂.pin_lt s (List.mem_append_left _ (by simpa using hs))
  refine ⟨?_, .of_alike (hal₁.trans hal₂) ?_⟩
  · refine h₂.of_allocContext (fun p he => (hal₂.inUse p).mpr (hp p he)) ?_ hlt ?_ h₂.loose_lt
      (h.scopes_nodup c) ?_ (by simp [stacksScope]) ?_ ?_ (by simp)
    · intro d hd
      rcases List.mem_cons.mp hd with rfl | hd
      · exact .inr rfl
      · exact .inl (h₂.mention_inUse d (List.mem_append_right _ hd))
    · exact fun s hs => h₂.pin_lt s (List.mem_append_right _ hs)
    · intro s
      simp [pinsScope, List.count_append, (h.scopes_nodup c).count]
    · intro d hd
      have hne : (a₂.allocContext
          { scopes := (a.context c).scopes, parent := (a.context c).parent, captured := true,
            refs := 1 }).1 ≠ d := fun he => allocContext_fresh _ (he ▸ hd)
      rw [List.count_cons_of_ne hne]
      exact count_parent_append d rfl
    · intro _
      have hnot : (a₂.allocContext
          { scopes := (a.context c).scopes, parent := (a.context c).parent, captured := true,
            refs := 1 }).1 ∉ k.mentions := fun hm =>
        allocContext_fresh _ (h₂.mention_inUse _ (List.mem_append_right _ hm))
      rw [List.count_cons_self, List.count_eq_zero.mpr hnot]
  · have hadds := h₂.orderly.adds_allocContext
      { scopes := (a.context c).scopes, parent := (a.context c).parent, captured := true,
        refs := 1 }
    exact { hadds with context_new := hadds.context_new.trans ⟨rfl, rfl, rfl⟩ }

/-! ### Stacks -/

section scopes
variable {c : ContextId} {s : ScopeId}

theorem pushScope_eq (a : Arena α) (c : ContextId) :
    a.pushScope c = (a.allocFrame.1, a.allocFrame.2.setContext c
      { a.context c with scopes := a.allocFrame.1 :: (a.context c).scopes }) := by
  rw [← a.context_allocFrame c]
  rfl

theorem pushScope_fresh : ¬ a.FrameInUse (a.pushScope c).1 := by
  rw [pushScope_eq]
  exact allocFrame_fresh

theorem pushScope_exact (h : a.Exact k) (hc : a.InUse c) (hcap : (a.context c).captured = false) :
    (a.pushScope c).2.Exact k := by
  have hin : a.allocFrame.2.InUse c := by simpa [InUse] using hc
  have hst := (h.allocFrame).stack (k := k) hin (by simpa using hcap)
  rw [pushScope_eq]
  simpa using hst

theorem context_pushScope (hc : a.InUse c) (d : ContextId) :
    (a.pushScope c).2.context d =
      if d = c then { a.context c with scopes := (a.pushScope c).1 :: (a.context c).scopes }
      else a.context d := by
  have hin : c.index < a.allocFrame.2.contexts.size := by simpa using hc.1
  rw [pushScope_eq, a.allocFrame.2.context_setContext hin, context_allocFrame]

theorem shape_pushScope (hc : a.InUse c) (d : ContextId) :
    ((a.pushScope c).2.context d).parent = (a.context d).parent ∧
      ((a.pushScope c).2.context d).captured = (a.context d).captured := by
  rw [context_pushScope hc]
  split
  · rename_i he
    rw [he]
    exact ⟨rfl, rfl⟩
  · exact ⟨rfl, rfl⟩

theorem inUse_pushScope (d : ContextId) : (a.pushScope c).2.InUse d ↔ a.InUse d := by
  rw [pushScope_eq]
  simp [InUse]

theorem frame_pushScope (h : a.Exact k) (t : ScopeId) :
    (a.pushScope c).2.frame t = if t = (a.pushScope c).1 then {} else a.frame t := by
  rw [pushScope_eq]
  exact h.orderly.frame_allocFrame t

theorem dropped_pushScope : (a.pushScope c).2.dropped = a.dropped := by
  rw [pushScope_eq]
  simp

theorem dropScope_exact {rest : List ScopeId} (h : a.Exact k) (hc : a.InUse c)
    (hcap : (a.context c).captured = false) (hs : (a.context c).scopes = s :: rest) :
    (a.dropScope c s closure?).Exact k := by
  have hu := h.unstack hc hcap hs
  have htail : (a.context c).scopes.tail = rest := by rw [hs]; rfl
  rw [← htail] at hu
  exact hu.settle (k := k)

theorem context_dropScope (hc : a.InUse c) (d : ContextId) :
    (a.dropScope c s closure?).context d =
      if d = c then { a.context c with scopes := (a.context c).scopes.tail } else a.context d := by
  simp only [dropScope, context_collectFrame, context_modifyFrame]
  exact a.context_setContext hc.1 _ d

/-- A popped scope changes the stack of a context only. -/
theorem shape_dropScope (hc : a.InUse c) (d : ContextId) :
    ((a.dropScope c s closure?).context d).parent = (a.context d).parent ∧
      ((a.dropScope c s closure?).context d).captured = (a.context d).captured := by
  rw [context_dropScope hc]
  split
  · rename_i he
    rw [he]
    exact ⟨rfl, rfl⟩
  · exact ⟨rfl, rfl⟩

theorem inUse_dropScope (d : ContextId) : (a.dropScope c s closure?).InUse d ↔ a.InUse d := by
  simp [dropScope, InUse]

/-- A frame in use after a scope was popped was in use before, and has its values or was emptied. -/
theorem frame_dropScope (hs : s.index < a.frames.size)
    (hexact : (a.dropScope c s closure?).Exact k) {t : ScopeId}
    (ht : (a.dropScope c s closure?).FrameInUse t) :
    a.FrameInUse t ∧ FrameSurvives closure? a (a.dropScope c s closure?) t :=
  frame_survives (a := a.setContext c { a.context c with scopes := (a.context c).scopes.tail })
    hs hexact ht fun _ => rfl

theorem dropped_dropScope : (a.dropScope c s closure?).dropped = a.dropped := by
  simp [dropScope]

theorem popFault?_eq_none {rest : List ScopeId} (hs : (a.context c).scopes = s :: rest) :
    a.popFault? c s = none := by
  simp [popFault?, hs]

end scopes

/-! ### Giving up -/

/-- A context of which the base is left and that nothing mentions is given up. -/
theorem releaseContext_spec (h : a.Exact k) {c : ContextId} {s : ScopeId} (hc : a.InUse c)
    (hcap : (a.context c).captured = false) (hs : (a.context c).scopes = [s])
    (hchild : ∀ d, (a.context d).parent ≠ some c) (hcm : c ∉ k.mentions) :
    ∃ b, a.releaseContext c closure? = .ok b ∧ b.Exact k ∧ Survives closure? [c] a b ∧
      ¬ b.InUse c := by
  have hd : (a.dropScope c s closure?).Exact k := dropScope_exact h hc hcap hs
  have hctx : ∀ d, (a.dropScope c s closure?).context d = _ := context_dropScope hc
  have hself := (hctx c).trans (if_pos rfl)
  have hin : (a.dropScope c s closure?).InUse c := (inUse_dropScope c).mpr hc
  have hpar : ∀ d, ((a.dropScope c s closure?).context d).parent = (a.context d).parent :=
    fun d => (shape_dropScope hc d).1
  have hfree := hd.close hin (by rw [hself]; exact hcap) (by rw [hself, hs]; rfl)
    (fun d => by rw [hpar]; exact hchild d) hcm
  have hsurv : Survives closure? [c] a ((a.dropScope c s closure?).freeContext c) := by
    have hf : Survives closure? [c] (a.dropScope c s closure?) _ := freeContext_survives hin
    refine ⟨fun d hd => (inUse_dropScope d).mp (hf.inUse d hd), ?_, ?_, ?_, ?_, ?_⟩
    · intro d hd
      have hne := ((inUse_freeContext c d).mp hd).1
      refine (hf.context d hd).trans ?_
      rw [hctx, if_neg hne]
      exact .refl _
    · intro d
      refine Nat.le_trans (hf.refs d) ?_
      rw [hctx]
      split
      · rename_i he
        exact he ▸ Nat.le_refl _
      · exact Nat.le_refl _
    · intro d hd _ hl
      exact (inUse_freeContext c d).mpr ⟨by simpa using hl, (inUse_dropScope d).mpr hd⟩
    · intro t ht
      have hlt := h.scope_lt c s (by rw [hs]; exact List.mem_cons_self)
      obtain ⟨huse, hvalues | ⟨hempty, hempties, hdoomed⟩⟩ := frame_dropScope hlt hd ht
      · exact ⟨huse, .inl hvalues⟩
      · exact ⟨huse, .inr ⟨hempty, hempties, hf.doomed hfree.orderly hdoomed⟩⟩
    · exact hf.dropped.trans dropped_dropScope
  have hgone : ¬ ((a.dropScope c s closure?).freeContext c).InUse c :=
    fun hu => hu.2 List.mem_cons_self
  have hparent : ((a.dropScope c s closure?).context c).parent = (a.context c).parent := hpar c
  rw [hparent] at hfree
  cases hp : (a.context c).parent with
  | none =>
    rw [hp] at hfree
    refine ⟨_, ?_, hfree, hsurv, hgone⟩
    simp only [releaseContext, hs, hp]
  | some p =>
    rw [hp] at hfree
    obtain ⟨b, hb, hexact, hs'⟩ := release_exact (k := k) hfree
    refine ⟨b, ?_, hexact, hsurv.trans hexact.orderly hs', fun hu => hgone (hs'.inUse c hu)⟩
    simp only [releaseContext, hs, hp, hb]

/-- The closures dropped since the last allocation are reclaimed. -/
theorem reclaim_spec {ms : List ContextId} (h : a.Exact { k with mentions := a.dropped ++ ms }) :
    ∃ b, a.reclaim = .ok b ∧ b.Exact { k with mentions := ms } ∧
      Survives (fun _ => none) [] { a with dropped := [] } b := by
  have h' : Exact { a with dropped := [] } { k with mentions := a.dropped ++ ms } :=
    { h with orderly := { h.orderly with } }
  exact releaseAll_exact h'

/-! ### Variables -/

theorem bind_exact (h : a.Exact k) {s : ScopeId} (hs : s.index < a.frames.size) (name : String)
    (v : α) : (a.bind s name v).Exact k :=
  h.modifyValues hs (fun _ => rfl) fun _ => rfl

@[simp] theorem context_bind (s : ScopeId) (name : String) (v : α) (c : ContextId) :
    (a.bind s name v).context c = a.context c := rfl

@[simp] theorem inUse_bind (s : ScopeId) (name : String) (v : α) (c : ContextId) :
    (a.bind s name v).InUse c ↔ a.InUse c := .rfl

@[simp] theorem frameInUse_bind (s : ScopeId) (name : String) (v : α) (t : ScopeId) :
    (a.bind s name v).FrameInUse t ↔ a.FrameInUse t := by
  simp [Arena.bind, FrameInUse]

theorem values_bind {s : ScopeId} (hs : s.index < a.frames.size) (name : String) (v : α)
    (t : ScopeId) :
    ((a.bind s name v).frame t).values =
      if t = s then (a.frame s).values.insert name v else (a.frame t).values := by
  rw [Arena.bind, a.frame_modifyFrame hs]
  split <;> rfl

/-- A search that has passed as many contexts as there are slots has come to its end. -/
theorem getFrom?_of_passed (h : a.Exact k) {rank : ContextId → Nat}
    (hrank : ∀ c p, (a.context c).parent = some p → rank p < rank c) (name : String) :
    ∀ (n : Nat) (c : ContextId) (passed : List ContextId), passed.Nodup →
      (∀ d ∈ passed, a.InUse d ∧ rank c < rank d) → a.contexts.size < n + passed.length →
      ∀ m, n ≤ m → a.getFrom? name m c = a.getFrom? name n c
  | 0, c, passed, hnodup, hpassed, hsize, m, hm => by
      have := length_le_of_nodup hnodup fun d hd => (hpassed d hd).1.1
      omega
  | n + 1, c, passed, hnodup, hpassed, hsize, 0, hm => by omega
  | n + 1, c, passed, hnodup, hpassed, hsize, m + 1, hm => by
      simp only [getFrom?]
      cases hp : (a.context c).parent with
      | none => rfl
      | some p =>
          have hc : a.InUse c := by
            by_contra hn
            rw [h.orderly.context_of_not_inUse hn] at hp
            cases hp
          have hlt := hrank c p hp
          have hfresh : c ∉ passed := fun hm => Nat.lt_irrefl _ (hpassed c hm).2
          rw [Option.bind_some, Option.bind_some, getFrom?_of_passed h hrank name n p (c :: passed)
            (List.nodup_cons.mpr ⟨hfresh, hnodup⟩) ?_ (by rw [List.length_cons]; omega) m
            (by omega)]
          intro d hd
          rcases List.mem_cons.mp hd with rfl | hd
          · exact ⟨hc, hlt⟩
          · exact ⟨(hpassed d hd).1, Nat.lt_trans hlt (hpassed d hd).2⟩

/-- **A search ends**: more fuel than there are slots finds nothing else. -/
theorem Exact.getFrom?_eq_get? (h : a.Exact k) (name : String) (c : ContextId) {m : Nat}
    (hm : a.contexts.size < m) : a.getFrom? name m c = a.get? c name := by
  obtain ⟨rank, hrank⟩ := h.ranked
  exact getFrom?_of_passed h hrank name _ c [] List.nodup_nil (by simp) (by simp) m hm

end Classlet.Arena
