import Classlet.Proofs.Scope.Operation

/-! # What stays of an arena

What a client can still get at are the contexts that have a stack of their own, those that it
holds closures of, and the parents of these (`Arena.Kept`).  `Extends own held a b` says that
whatever is kept in the arena `a`, by the closures in `held`, is in use in `b`, with the same stack
and the same parent, and that at most the variables of the scopes in `own` have changed.  It is what
a piece of code does to the contexts that were there before it ran.

The scopes and contexts that the code makes for itself come and go meanwhile: a scope that is
pushed and popped again (`Extends.popped`), and a context that is opened and released again
(`Extends.released`), leave no trace.  Closures that are reclaimed take away what nobody can get at
(`Extends.survives`): a frame that is emptied is mentioned by dropped closures only. -/

namespace Classlet.Arena

variable {α : Type} {own : List ScopeId} {held : List ContextId} {a b c : Arena α} {k l : Holdings}
  {ms : List ContextId} {closure? : α → Option ContextId}

/-! ### What is kept -/

/-- Whether a context is in use and has a stack of its own. -/
def Open (a : Arena α) (c : ContextId) : Prop :=
  a.InUse c ∧ (a.context c).captured = false

/-- The contexts that can be got at: those with a stack of their own, those of closures that are
held, and the parents of contexts that can be got at. -/
inductive Kept (a : Arena α) (held : List ContextId) : ContextId → Prop
  | opened {c : ContextId} : a.Open c → Kept a held c
  | held {c : ContextId} : c ∈ held → Kept a held c
  | parent {c p : ContextId} : Kept a held c → (a.context c).parent = some p → Kept a held p

namespace Kept

variable {x : ContextId}

theorem inUse (h : a.Kept held x) (ha : a.Exact k) (hheld : ∀ c ∈ held, a.InUse c) :
    a.InUse x := by
  induction h with
  | opened hx => exact hx.1
  | held hx => exact hheld _ hx
  | parent _ hp _ => exact ha.parent_inUse _ _ hp

theorem mono {held' : List ContextId} (h : a.Kept held x) (hsub : ∀ c ∈ held, c ∈ held') :
    a.Kept held' x := by
  induction h with
  | opened hx => exact .opened hx
  | held hx => exact .held (hsub _ hx)
  | parent _ hp ih => exact .parent ih hp

theorem of_shape (h : a.Kept held x) (hopen : ∀ c, a.Open c → b.Open c)
    (hparent : ∀ c, (b.context c).parent = (a.context c).parent) : b.Kept held x := by
  induction h with
  | opened hx => exact .opened (hopen _ hx)
  | held hx => exact .held hx
  | parent _ hp ih => exact .parent ih ((hparent _).trans hp)

/-- Scopes of contexts that can be got at are mentioned by others than dropped closures. -/
theorem not_doomed (h : b.Kept held x) (hb : b.Exact { k with mentions := ms ++ b.dropped })
    (hheld : ∀ c ∈ held, c ∈ ms) {s : ScopeId} (hs : s ∈ (b.context x).scopes) : ¬ b.Doomed s := by
  intro hdoomed
  obtain ⟨hcap, hdropped, hrefs⟩ := hdoomed x hs
  have hcount := hb.refs_eq x hcap
  rw [List.count_append] at hcount
  have hqueued : 0 < b.dropped.count x := List.count_pos_iff.mpr hdropped
  cases h with
  | opened hopen =>
      rw [hopen.2] at hcap
      cases hcap
  | held hx =>
      have hmention : 0 < ms.count x := List.count_pos_iff.mpr (hheld x hx)
      omega
  | @parent y _ _ hp =>
      have hchild : 0 < b.count (hasParent x) :=
        b.count_pos (c := y) (by simp [hasParent, hp]) (hasParent_empty x)
      omega

end Kept

/-- Everything that is kept stays as it is, but for the variables of some scopes. -/
structure Extends (own : List ScopeId) (held : List ContextId) (a b : Arena α) : Prop where
  inUse : ∀ x, a.Kept held x → b.InUse x
  context : ∀ x, a.Kept held x → (b.context x).Agrees (a.context x)
  values : ∀ x, a.Kept held x → ∀ s ∈ (a.context x).scopes, s ∉ own →
    (b.frame s).values = (a.frame s).values

namespace Extends

theorem refl (own : List ScopeId) (ha : a.Exact k) (hheld : ∀ c ∈ held, a.InUse c) :
    Extends own held a a :=
  ⟨fun _ h => h.inUse ha hheld, fun _ _ => .refl _, fun _ _ _ _ _ => rfl⟩

theorem stays_open (h : Extends own held a b) {x : ContextId} (hx : a.Open x) : b.Open x :=
  ⟨h.inUse x (.opened hx), (h.context x (.opened hx)).captured.trans hx.2⟩

theorem kept (h : Extends own held a b) {x : ContextId} (hx : a.Kept held x) : b.Kept held x := by
  induction hx with
  | opened hx => exact .opened (h.stays_open hx)
  | held hx => exact .held hx
  | parent hx hp ih => exact .parent ih ((h.context _ hx).parent.trans hp)

theorem trans (h₁ : Extends own held a b) (h₂ : Extends own held b c) : Extends own held a c := by
  refine ⟨fun x hx => h₂.inUse x (h₁.kept hx), ?_, ?_⟩
  · exact fun x hx => (h₂.context x (h₁.kept hx)).trans (h₁.context x hx)
  · intro x hx s hs hown
    have hs' : s ∈ (b.context x).scopes := by
      rw [(h₁.context x hx).scopes]
      exact hs
    rw [h₂.values x (h₁.kept hx) s hs' hown, h₁.values x hx s hs hown]

theorem mono {own' : List ScopeId} (h : Extends own held a b) (hsub : ∀ s ∈ own, s ∈ own') :
    Extends own' held a b :=
  { h with values := fun x hx s hs hown => h.values x hx s hs fun hm => hown (hsub s hm) }

/-- Less is kept by fewer closures. -/
theorem fewer {held' : List ContextId} (h : Extends own held a b) (hsub : ∀ c ∈ held', c ∈ held) :
    Extends own held' a b :=
  ⟨fun x hx => h.inUse x (hx.mono hsub), fun x hx => h.context x (hx.mono hsub),
    fun x hx => h.values x (hx.mono hsub)⟩

theorem of_dropped {dropped : List ContextId}
    (h : Extends own held { a with dropped := dropped } b) : Extends own held a b := by
  have hkept : ∀ x, a.Kept held x → ({ a with dropped := dropped } : Arena α).Kept held x :=
    fun x hx => hx.of_shape (fun _ hc => hc) fun _ => rfl
  exact ⟨fun x hx => h.inUse x (hkept x hx), fun x hx => h.context x (hkept x hx),
    fun x hx => h.values x (hkept x hx)⟩

/-- Frames that were not in use are nobody's. -/
theorem of_fresh {news : List ScopeId} (hexact : a.Exact k) (h : Extends (news ++ own) held a b)
    (hfresh : ∀ s ∈ news, ¬ a.FrameInUse s) : Extends own held a b := by
  refine { h with values := fun x hx s hs hown => h.values x hx s hs fun hm => ?_ }
  rcases List.mem_append.mp hm with hm | hm
  · exact hfresh s hm (hexact.scope_inUse hs)
  · exact hown hm

theorem of_adds {x : ContextId} {y : Context} {news : List ScopeId} (hexact : a.Exact k)
    (hheld : ∀ c ∈ held, a.InUse c) (h : Adds a b x y news) : Extends [] held a b := by
  have hne : ∀ z, a.Kept held z → z ≠ x := by
    rintro z hz rfl
    exact h.fresh (hz.inUse hexact hheld)
  refine ⟨fun z hz => (h.inUse z).mpr (.inr (hz.inUse hexact hheld)),
    fun z hz => h.context_old z (hne z hz), ?_⟩
  intro z _ s hs _
  exact h.values_old s fun hm => h.frame_fresh s hm (hexact.scope_inUse hs)

theorem bind {s : ScopeId} (ha : a.Exact k) (hheld : ∀ c ∈ held, a.InUse c)
    (hs : s.index < a.frames.size) (hown : s ∈ own) (name : String) (v : α) :
    Extends own held a (a.bind s name v) := by
  refine ⟨fun _ hx => (inUse_bind s name v _).mpr (hx.inUse ha hheld), fun _ _ => .refl _,
    fun x _ t _ ht => ?_⟩
  rw [values_bind hs, if_neg]
  rintro rfl
  exact ht hown

/-! ### Giving up -/

/-- What is given up was not kept. -/
theorem survives {lost : List ContextId} (h : Extends own held a b)
    (hs : Survives closure? lost b c) (hlost : ∀ x, a.Kept held x → x ∉ lost)
    (hc : c.Exact { k with mentions := ms ++ c.dropped }) (hheld : ∀ x ∈ held, x ∈ ms) :
    Extends own held a c := by
  have hagree : ∀ x, a.Kept held x → c.InUse x → (c.context x).Agrees (a.context x) :=
    fun x hx huse => (hs.context x huse).trans (h.context x hx)
  have huse : ∀ x, a.Kept held x → c.InUse x := by
    intro x hx
    induction hx with
    | opened hx =>
        have hopen := h.stays_open hx
        exact hs.opened _ hopen.1 hopen.2 (hlost _ (.opened hx))
    | held hx => exact hc.mention_inUse _ (List.mem_append_left _ (hheld _ hx))
    | parent hx hp ih => exact hc.parent_inUse _ _ ((hagree _ hx ih).parent.trans hp)
  have hkept : ∀ x, a.Kept held x → c.Kept held x := by
    intro x hx
    induction hx with
    | opened hx =>
        have hin := huse _ (.opened hx)
        exact .opened ⟨hin, (hagree _ (.opened hx) hin).captured.trans hx.2⟩
    | held hx => exact .held hx
    | parent hx hp ih => exact .parent ih ((hagree _ hx (huse _ hx)).parent.trans hp)
  refine ⟨huse, fun x hx => hagree x hx (huse x hx), fun x hx s hm hown => ?_⟩
  have hmem : s ∈ (c.context x).scopes := by
    rw [(hagree x hx (huse x hx)).scopes]
    exact hm
  have hvalues := (hs.frame s (hc.scope_inUse hmem)).2.resolve_right fun hempty =>
    (hkept x hx).not_doomed hc hheld hmem hempty.2.2
  rw [hvalues, h.values x hx s hm hown]

/-! ### Scopes -/

/-- Code that ran in a scope of its own has only changed the scopes around it. -/
theorem popped {x : ContextId} (ha : a.Exact k) (hx : a.Open x)
    (hb : b.Exact { l with mentions := ms ++ b.dropped }) (hheld : ∀ c ∈ held, c ∈ ms)
    (h : Extends ((a.pushScope x).1 :: (a.context x).scopes) held (a.pushScope x).2 b) :
    Extends (a.context x).scopes held a (b.dropScope x (a.pushScope x).1 closure?) := by
  have hpush := context_pushScope (a := a) hx.1
  have hin : ∀ z, a.Kept held z → (a.pushScope x).2.Kept held z := fun z hz =>
    hz.of_shape (fun d hd => ⟨(inUse_pushScope d).mpr hd.1, (shape_pushScope hx.1 d).2.trans hd.2⟩)
      fun d => (shape_pushScope hx.1 d).1
  have hopen := h.stays_open (x := x)
    ⟨(inUse_pushScope x).mpr hx.1, (shape_pushScope hx.1 x).2.trans hx.2⟩
  have hstack : (b.context x).scopes = (a.pushScope x).1 :: (a.context x).scopes := by
    rw [(h.context x (hin x (.opened hx))).scopes, hpush, if_pos rfl]
  let d := b.dropScope x (a.pushScope x).1 closure?
  have hexact : d.Exact { l with mentions := ms ++ d.dropped } := by
    rw [show d.dropped = b.dropped from dropped_dropScope]
    exact dropScope_exact hb hopen.1 hopen.2 hstack
  have hagree : ∀ z, a.Kept held z → (d.context z).Agrees (a.context z) := by
    intro z hz
    have hbz := h.context z (hin z hz)
    rw [hpush] at hbz
    rw [context_dropScope hopen.1]
    by_cases he : z = x
    · rw [if_pos he] at hbz ⊢
      rw [he] at hbz ⊢
      exact ⟨by rw [hstack]; rfl, hbz.parent, hbz.captured⟩
    · rw [if_neg he] at hbz ⊢
      exact hbz
  have huse : ∀ z, a.Kept held z → d.InUse z :=
    fun z hz => (inUse_dropScope z).mpr (h.inUse z (hin z hz))
  have hkept : ∀ z, a.Kept held z → d.Kept held z := by
    intro z hz
    refine (h.kept (hin z hz)).of_shape (fun y hy => ?_) fun y => (shape_dropScope hopen.1 y).1
    exact ⟨(inUse_dropScope y).mpr hy.1, (shape_dropScope hopen.1 y).2.trans hy.2⟩
  refine ⟨huse, hagree, fun z hz s hs hown => ?_⟩
  have hne : s ≠ (a.pushScope x).1 := by
    rintro rfl
    exact pushScope_fresh (ha.scope_inUse hs)
  have hscope : s ∈ (d.context z).scopes := by
    rw [(hagree z hz).scopes]
    exact hs
  have hlt := hb.scope_lt x (a.pushScope x).1 (by rw [hstack]; exact List.mem_cons_self)
  have hmem : s ∈ ((a.pushScope x).2.context z).scopes := by
    rw [hpush]
    split
    · rename_i he
      rw [he] at hs
      exact List.mem_cons_of_mem _ hs
    · exact hs
  have hvalues := (frame_dropScope hlt hexact (hexact.scope_inUse hscope)).2.resolve_right
    fun hempty => (hkept z hz).not_doomed hexact hheld hscope hempty.2.2
  rw [hvalues, h.values z (hin z hz) s hmem ?_, frame_pushScope ha, if_neg hne]
  rw [List.mem_cons]
  rintro (he | hm)
  · exact hne he
  · exact hown hm

/-! ### Contexts -/

/-- Code that ran in a context of its own, which is released afterwards, has changed nothing that
was there before it. -/
theorem released {d : Arena α} {x : ContextId} {y : Context} {news : List ScopeId}
    (ha : a.Exact k) (hused : ∀ z ∈ held, a.InUse z) (hadds : Adds a b x y news)
    (h : Extends news held b c) (hs : Survives closure? [x] c d)
    (hd : d.Exact { l with mentions := ms ++ d.dropped }) (hheld : ∀ z ∈ held, z ∈ ms) :
    Extends [] held a d := by
  have hab := of_adds ha hused hadds
  have hac : Extends news held a c := (hab.mono fun _ hm => by cases hm).trans h
  have hac : Extends [] held a c :=
    of_fresh ha (hac.mono fun _ => List.mem_append_left []) hadds.frame_fresh
  refine hac.survives hs (fun z hz hmem => ?_) hd hheld
  obtain rfl := List.mem_singleton.mp hmem
  exact hadds.fresh (hz.inUse ha hused)

end Extends

end Classlet.Arena
