import Classlet.Proofs.Scope.Slots

/-! # Exact bookkeeping

An arena keeps three counts: the pins of a frame, the mentions of a frozen context, and whether a
frame is on a stack.  `Arena.Exact` says that each of them is the number of things it counts.

The operations of an arena change a count and what it counts at different moments.  `Holdings`
lists what is held outside of the contexts in between: mentions, pins and frames that belong to no
context yet, or to none any more.  With it, every step of every operation keeps the arena exact,
and each operation is a chain of such steps: a new frame is loose until it is put onto a stack, a
pin is held until the context that pins is there, and what a freed context mentioned is held until
it is given up.

Closures hold a mention each, so the mentions held between operations are those of the closures
that are not yet reclaimed. -/

namespace Classlet.Arena

variable {α : Type}

/-- What is held outside of the contexts of an arena. -/
structure Holdings where
  /-- Mentions of contexts. -/
  mentions : List ContextId := []
  /-- Pins of frames. -/
  pins : List ScopeId := []
  /-- Frames that are flagged live and on no stack. -/
  loose : List ScopeId := []

/-- Whether a context is frozen and has a scope. -/
def pinsScope (s : ScopeId) (x : Context) : Bool := x.captured && decide (s ∈ x.scopes)

/-- Whether a context has a scope on its stack. -/
def stacksScope (s : ScopeId) (x : Context) : Bool := !x.captured && decide (s ∈ x.scopes)

def hasParent (c : ContextId) (x : Context) : Bool := decide (x.parent = some c)

/-- All counts of an arena are exact. -/
structure Exact (a : Arena α) (k : Holdings) : Prop where
  orderly : a.Orderly
  /-- Mentions lead to contexts in use. -/
  mention_inUse : ∀ c ∈ k.mentions, a.InUse c
  parent_inUse : ∀ c p, (a.context c).parent = some p → a.InUse p
  /-- Scopes exist. -/
  scope_lt : ∀ c, ∀ s ∈ (a.context c).scopes, s.index < a.frames.size
  pin_lt : ∀ s ∈ k.pins, s.index < a.frames.size
  loose_lt : ∀ s ∈ k.loose, s.index < a.frames.size
  scopes_nodup : ∀ c, (a.context c).scopes.Nodup
  pins_eq : ∀ s, s.index < a.frames.size → (a.frame s).pins = a.count (pinsScope s) + k.pins.count s
  live_eq : ∀ s, s.index < a.frames.size →
    (if (a.frame s).live then 1 else 0) = a.count (stacksScope s) + k.loose.count s
  refs_eq : ∀ c, (a.context c).captured →
    (a.context c).refs = a.count (hasParent c) + k.mentions.count c
  refs_pos : ∀ c, (a.context c).captured → 0 < (a.context c).refs
  /-- A frame is free exactly if it is neither live nor pinned. -/
  free_iff : ∀ s, s.index < a.frames.size →
    (s ∈ a.freeFrames ↔ a.Idle s)
  /-- Parents do not form a cycle. -/
  ranked : ∃ rank : ContextId → Nat, ∀ c p, (a.context c).parent = some p → rank p < rank c

@[simp] theorem pinsScope_empty (s : ScopeId) : pinsScope s {} = false := rfl

@[simp] theorem stacksScope_empty (s : ScopeId) : stacksScope s {} = false := rfl

@[simp] theorem hasParent_empty (c : ContextId) : hasParent c {} = false := rfl

namespace Exact

variable {a : Arena α} {k : Holdings}

theorem empty : Exact ({} : Arena α) {} := by
  have hc : ∀ c, ({} : Arena α).context c = {} := fun c => rfl
  have hs : ∀ s : ScopeId, ¬ s.index < ({} : Arena α).frames.size := fun s => Nat.not_lt_zero _
  constructor
  case orderly => constructor <;> simp
  case ranked => exact ⟨fun _ => 0, fun c p h => by rw [hc] at h; cases h⟩
  all_goals simp [hc]

/-! ### Consequences -/

theorem scope_inUse (h : a.Exact k) {c : ContextId} {s : ScopeId} (hs : s ∈ (a.context c).scopes) :
    a.FrameInUse s := by
  have hlt := h.scope_lt c s hs
  refine ⟨hlt, fun hfree => ?_⟩
  obtain ⟨hlive, hpins⟩ := (h.free_iff s hlt).mp hfree
  cases hc : (a.context c).captured with
  | true =>
    have hp := h.pins_eq s hlt
    have : 0 < a.count (pinsScope s) :=
      a.count_pos (c := c) (by simp [pinsScope, hc, hs]) (pinsScope_empty s)
    omega
  | false =>
    have hl := h.live_eq s hlt
    have : 0 < a.count (stacksScope s) :=
      a.count_pos (c := c) (by simp [stacksScope, hc, hs]) (stacksScope_empty s)
    rw [hlive] at hl
    simp at hl
    omega

/-- A frame that is held outside of the stacks is on none of them. -/
theorem loose_not_mem (h : a.Exact k) {s : ScopeId} (hs : s ∈ k.loose) {c : ContextId}
    (hc : (a.context c).captured = false) : s ∉ (a.context c).scopes := by
  intro hmem
  have hl := h.live_eq s (h.loose_lt s hs)
  have h1 : 0 < a.count (stacksScope s) :=
    a.count_pos (c := c) (by simp [stacksScope, hc, hmem]) (stacksScope_empty s)
  have h2 : 0 < k.loose.count s := List.count_pos_iff.mpr hs
  split at hl <;> omega

theorem captured_inUse (h : a.Exact k) {c : ContextId} (hc : (a.context c).captured) :
    a.InUse c := by
  by_contra hn
  rw [h.orderly.context_of_not_inUse hn] at hc
  cases hc

/-- A frame that is not in use has no pins and no stack, and is not held. -/
theorem count_of_not_frameInUse (h : a.Exact k) {s : ScopeId} (hs : ¬ a.FrameInUse s) :
    a.count (pinsScope s) = 0 ∧ k.pins.count s = 0 ∧ a.count (stacksScope s) = 0 ∧
      k.loose.count s = 0 := by
  have hmem : ∀ c, s ∉ (a.context c).scopes := fun c hc => hs (h.scope_inUse hc)
  refine ⟨a.count_eq_zero fun c => by simp [pinsScope, hmem c], ?_,
    a.count_eq_zero fun c => by simp [stacksScope, hmem c], ?_⟩
  · refine List.count_eq_zero.mpr fun hp => ?_
    have hlt := h.pin_lt s hp
    have hfree : s ∈ a.freeFrames := by by_contra hn; exact hs ⟨hlt, hn⟩
    have := h.pins_eq s hlt
    rw [((h.free_iff s hlt).mp hfree).2] at this
    have : 0 < k.pins.count s := List.count_pos_iff.mpr hp
    omega
  · refine List.count_eq_zero.mpr fun hp => ?_
    have hlt := h.loose_lt s hp
    have hfree : s ∈ a.freeFrames := by by_contra hn; exact hs ⟨hlt, hn⟩
    have hl := h.live_eq s hlt
    rw [((h.free_iff s hlt).mp hfree).1] at hl
    have : 0 < k.loose.count s := List.count_pos_iff.mpr hp
    simp at hl
    omega

theorem with_dropped (h : a.Exact k) (dropped : List ContextId) :
    Exact { a with dropped := dropped } k :=
  { h with orderly := { h.orderly with } }

/-- The order of mentions does not matter. -/
theorem perm_mentions {ms : List ContextId} (h : a.Exact k) (hm : ms.Perm k.mentions) :
    a.Exact { k with mentions := ms } :=
  { h with
    mention_inUse := fun c hc => h.mention_inUse c (hm.mem_iff.mp hc)
    refs_eq := fun c hc => by rw [hm.count_eq]; exact h.refs_eq c hc }

/-- Mentions of contexts that are not frozen are not counted. -/
theorem congr_mentions {ms : List ContextId} (h : a.Exact k) (hm : ∀ d ∈ ms, a.InUse d)
    (hcount : ∀ d, (a.context d).captured → ms.count d = k.mentions.count d) :
    a.Exact { k with mentions := ms } :=
  { h with
    mention_inUse := hm
    refs_eq := fun d hd => by rw [hcount d hd]; exact h.refs_eq d hd }

/-! ### Changes of frames

A step that changes frames leaves the contexts alone, and with them what is counted. -/

theorem of_frames (h : a.Exact k) {b : Arena α} {k' : Holdings} (hc : b.contexts = a.contexts)
    (hf : b.freeContexts = a.freeContexts) (ho : b.Orderly)
    (hsize : a.frames.size ≤ b.frames.size) (hm : k'.mentions = k.mentions)
    (hpin : ∀ s ∈ k'.pins, s.index < b.frames.size)
    (hloose : ∀ s ∈ k'.loose, s.index < b.frames.size)
    (hpins : ∀ s, s.index < b.frames.size →
      (b.frame s).pins = a.count (pinsScope s) + k'.pins.count s)
    (hlive : ∀ s, s.index < b.frames.size →
      (if (b.frame s).live then 1 else 0) = a.count (stacksScope s) + k'.loose.count s)
    (hfree : ∀ s, s.index < b.frames.size →
      (s ∈ b.freeFrames ↔ b.Idle s)) : b.Exact k' := by
  have hctx : ∀ c, b.context c = a.context c := fun c => by unfold context; rw [hc]
  have huse : ∀ c, b.InUse c ↔ a.InUse c := fun c => by unfold InUse; rw [hc, hf]
  have hcount : ∀ p, b.count p = a.count p := count_congr hc
  refine ⟨ho, ?_, ?_, ?_, hpin, hloose, ?_, ?_, ?_, ?_, ?_, hfree, ?_⟩
  · rw [hm]
    exact fun c hc => (huse c).mpr (h.mention_inUse c hc)
  · intro c p hp
    rw [hctx] at hp
    exact (huse p).mpr (h.parent_inUse c p hp)
  · intro c s hs
    rw [hctx] at hs
    exact Nat.lt_of_lt_of_le (h.scope_lt c s hs) hsize
  · exact fun c => by rw [hctx]; exact h.scopes_nodup c
  · exact fun s hs => by rw [hcount]; exact hpins s hs
  · exact fun s hs => by rw [hcount]; exact hlive s hs
  · intro c hcap
    rw [hctx] at hcap ⊢
    rw [hcount, hm]
    exact h.refs_eq c hcap
  · intro c hcap
    rw [hctx] at hcap ⊢
    exact h.refs_pos c hcap
  · obtain ⟨rank, hrank⟩ := h.ranked
    exact ⟨rank, fun c p hp => hrank c p (by rw [← hctx]; exact hp)⟩

theorem allocFrame (h : a.Exact k) :
    a.allocFrame.2.Exact { k with loose := a.allocFrame.1 :: k.loose } := by
  have ho := h.orderly
  obtain ⟨hp, hkp, hl, hkl⟩ := h.count_of_not_frameInUse allocFrame_fresh
  have hold : ∀ s, s.index < a.allocFrame.2.frames.size → s ≠ a.allocFrame.1 →
      s.index < a.frames.size := by
    intro s hs hne
    by_contra hge
    have hfree : s ∉ a.allocFrame.2.freeFrames := by
      intro hmem
      unfold Arena.allocFrame at hmem
      split at hmem <;> rename_i hcase
      · exact hge (ho.frames_lt s (by rw [hcase]; exact List.mem_cons_of_mem _ hmem))
      · exact hge (ho.frames_lt s hmem)
    rcases (ho.frameInUse_allocFrame s).mp ⟨hs, hfree⟩ with rfl | huse
    · exact hne rfl
    · exact hge huse.1
  have hsize : a.frames.size ≤ a.allocFrame.2.frames.size := by
    unfold Arena.allocFrame
    split <;> simp
  refine h.of_frames (by simp) (by simp) ho.allocFrame hsize rfl
    (fun s hs => Nat.lt_of_lt_of_le (h.pin_lt s hs) hsize) ?_ ?_ ?_ ?_
  · intro s hs
    rcases List.mem_cons.mp hs with rfl | hs
    · exact ho.allocFrame_lt
    · exact Nat.lt_of_lt_of_le (h.loose_lt s hs) hsize
  · intro s hs
    rw [ho.frame_allocFrame]
    by_cases he : s = a.allocFrame.1
    · subst he
      simp only [if_pos]
      omega
    · rw [if_neg he]
      exact h.pins_eq s (hold s hs he)
  · intro s hs
    rw [ho.frame_allocFrame]
    by_cases he : s = a.allocFrame.1
    · subst he
      simp only [if_pos, List.count_cons_self]
      omega
    · rw [if_neg he, List.count_cons_of_ne (Ne.symm he)]
      exact h.live_eq s (hold s hs he)
  · intro s hs
    rw [Idle, ho.frame_allocFrame]
    by_cases he : s = a.allocFrame.1
    · subst he
      have huse := (ho.frameInUse_allocFrame a.allocFrame.1).mpr (.inl rfl)
      simp [huse.2]
    · rw [if_neg he, ← Idle, ← h.free_iff s (hold s hs he)]
      have huse := ho.frameInUse_allocFrame s
      simp only [FrameInUse, hs, hold s hs he, he, false_or, true_and] at huse
      exact not_iff_not.mp huse

theorem modifyValues (h : a.Exact k) {s : ScopeId} (hs : s.index < a.frames.size)
    {f : Frame α → Frame α} (hp : ∀ x, (f x).pins = x.pins) (hl : ∀ x, (f x).live = x.live) :
    (a.modifyFrame s f).Exact k := by
  have hsame : ∀ t, ((a.modifyFrame s f).frame t).pins = (a.frame t).pins ∧
      ((a.modifyFrame s f).frame t).live = (a.frame t).live := by
    intro t
    rw [a.frame_modifyFrame hs]
    split
    · rename_i he
      rw [he]
      exact ⟨hp _, hl _⟩
    · exact ⟨rfl, rfl⟩
  refine h.of_frames rfl rfl (h.orderly.modifyFrame s f) (by simp) rfl (by simpa using h.pin_lt)
    (by simpa using h.loose_lt) ?_ ?_ ?_
  · exact fun t ht => by rw [(hsame t).1]; exact h.pins_eq t (by simpa using ht)
  · exact fun t ht => by rw [(hsame t).2]; exact h.live_eq t (by simpa using ht)
  · exact fun t ht => by rw [Idle, (hsame t).1, (hsame t).2]; exact h.free_iff t (by simpa using ht)

section collect
variable {closure? : α → Option ContextId}

/-- A step that changes the counts of one frame and then collects it. -/
theorem modifyCollect (h : a.Exact k) {s : ScopeId} (hs : a.FrameInUse s) {f : Frame α → Frame α}
    {l : Holdings} (hm : l.mentions = k.mentions)
    (hpin : ∀ t ∈ l.pins, t.index < a.frames.size)
    (hloose : ∀ t ∈ l.loose, t.index < a.frames.size)
    (hpins : ∀ t, t ≠ s → l.pins.count t = k.pins.count t)
    (hlive : ∀ t, t ≠ s → l.loose.count t = k.loose.count t)
    (hpins_s : (f (a.frame s)).pins = a.count (pinsScope s) + l.pins.count s)
    (hlive_s : (if (f (a.frame s)).live then 1 else 0) =
      a.count (stacksScope s) + l.loose.count s) :
    ((a.modifyFrame s f).collectFrame s closure?).Exact l := by
  have hframe : ∀ t, (((a.modifyFrame s f).collectFrame s closure?).frame t).pins =
        (if t = s then f (a.frame s) else a.frame t).pins ∧
      (((a.modifyFrame s f).collectFrame s closure?).frame t).live =
        (if t = s then f (a.frame s) else a.frame t).live := by
    intro t
    rw [pins_collectFrame (by simpa using hs.1), live_collectFrame (by simpa using hs.1),
      a.frame_modifyFrame hs.1]
    exact ⟨rfl, rfl⟩
  have ho : ((a.modifyFrame s f).collectFrame s closure?).Orderly :=
    (h.orderly.modifyFrame s f).collectFrame ⟨by simpa using hs.1, hs.2⟩
  refine h.of_frames (by simp) (by simp) ho (by simp) hm (by simpa using hpin)
    (by simpa using hloose) ?_ ?_ ?_
  · intro t ht
    rw [(hframe t).1]
    by_cases he : t = s
    · rw [if_pos he, he]
      exact hpins_s
    · rw [if_neg he, hpins t he]
      exact h.pins_eq t (by simpa using ht)
  · intro t ht
    rw [(hframe t).2]
    by_cases he : t = s
    · rw [if_pos he, he]
      exact hlive_s
    · rw [if_neg he, hlive t he]
      exact h.live_eq t (by simpa using ht)
  · intro t ht
    rw [mem_freeFrames_collectFrame, Idle, Idle, (hframe t).1, (hframe t).2,
      a.frame_modifyFrame hs.1]
    by_cases he : t = s
    · subst he
      simp [hs.2]
    · simp only [he, false_and, false_or, modifyFrame_freeFrames]
      exact h.free_iff t (by simpa using ht)

theorem unpin {ps : List ScopeId} {s : ScopeId} (h : a.Exact { k with pins := s :: ps }) :
    ∃ b, a.unpin s closure? = .ok b ∧ b.Exact { k with pins := ps } := by
  have hlt := h.pin_lt s List.mem_cons_self
  have hpins := h.pins_eq s hlt
  rw [List.count_cons_self] at hpins
  have huse : a.FrameInUse s := by
    refine ⟨hlt, fun hfree => ?_⟩
    have := ((h.free_iff s hlt).mp hfree).2
    omega
  refine ⟨(a.modifyFrame s fun f => { f with pins := f.pins - 1 }).collectFrame s closure?, ?_,
    h.modifyCollect huse rfl (fun t ht => h.pin_lt t (List.mem_cons_of_mem _ ht)) h.loose_lt ?_
      (fun _ _ => rfl) ?_ (h.live_eq s hlt)⟩
  · rw [Arena.unpin, if_neg (by omega)]
  · exact fun t ht => (List.count_cons_of_ne (Ne.symm ht)).symm
  · show (a.frame s).pins - 1 = _
    rw [hpins]
    rfl

theorem settle {ls : List ScopeId} {s : ScopeId} (h : a.Exact { k with loose := s :: ls }) :
    ((a.modifyFrame s fun f => { f with live := false }).collectFrame s closure?).Exact
      { k with loose := ls } := by
  have hlt := h.loose_lt s List.mem_cons_self
  have hlive := h.live_eq s hlt
  rw [List.count_cons_self] at hlive
  have huse : a.FrameInUse s := by
    refine ⟨hlt, fun hfree => ?_⟩
    rw [((h.free_iff s hlt).mp hfree).1] at hlive
    simp at hlive
  refine h.modifyCollect huse rfl h.pin_lt (fun t ht => h.loose_lt t (List.mem_cons_of_mem _ ht))
    (fun _ _ => rfl) ?_ (h.pins_eq s hlt) ?_
  · exact fun t ht => (List.count_cons_of_ne (Ne.symm ht)).symm
  · split at hlive
    · simp
      omega
    · omega

end collect

theorem pin (h : a.Exact k) {s : ScopeId} (hs : a.FrameInUse s) :
    (a.modifyFrame s fun f => { f with pins := f.pins + 1 }).Exact
      { k with pins := s :: k.pins } := by
  have hframe := a.frame_modifyFrame hs.1 fun f => { f with pins := f.pins + 1 }
  have hidle : ∀ t, (a.modifyFrame s fun f => { f with pins := f.pins + 1 }).Idle t ↔
      t ≠ s ∧ a.Idle t := by
    intro t
    by_cases he : t = s <;> simp [Idle, hframe, he]
  refine h.of_frames rfl rfl (h.orderly.modifyFrame s _) (by simp) rfl ?_
    (by simpa using h.loose_lt) ?_ ?_ ?_
  · intro t ht
    rw [size_modifyFrame]
    rcases List.mem_cons.mp ht with rfl | ht
    · exact hs.1
    · exact h.pin_lt t ht
  · intro t ht
    have hp := h.pins_eq t (by simpa using ht)
    rw [hframe]
    by_cases he : t = s
    · subst he
      simp only [if_pos, List.count_cons_self]
      omega
    · rwa [if_neg he, List.count_cons_of_ne (Ne.symm he)]
  · intro t ht
    rw [hframe]
    have hl := h.live_eq t (by simpa using ht)
    split
    · rename_i he
      rw [he] at hl ⊢
      exact hl
    · exact hl
  · intro t ht
    rw [hidle, modifyFrame_freeFrames, h.free_iff t (by simpa using ht)]
    refine ⟨fun hi => ⟨?_, hi⟩, And.right⟩
    rintro rfl
    exact hs.2 ((h.free_iff t hs.1).mpr hi)

/-! ### Changes of contexts

A step that changes the context in one slot leaves the frames alone.  What the old context had
and what is held go over into what the new context has and what is held then. -/

theorem of_context (h : a.Exact k) {b : Arena α} {k' : Holdings} {c : ContextId} {x : Context}
    (hframes : b.frames = a.frames) (hfree : b.freeFrames = a.freeFrames) (ho : b.Orderly)
    (hctx : ∀ d, b.context d = if d = c then x else a.context d)
    (hcount : ∀ p : Context → Bool, p {} = false →
      b.count p + (if p (a.context c) then 1 else 0) = a.count p + (if p x then 1 else 0))
    (hmention : ∀ d ∈ k'.mentions, b.InUse d)
    (hparent : ∀ d p, (b.context d).parent = some p → b.InUse p)
    (hscope : ∀ s ∈ x.scopes, s.index < a.frames.size)
    (hpin : ∀ s ∈ k'.pins, s.index < a.frames.size)
    (hloose : ∀ s ∈ k'.loose, s.index < a.frames.size)
    (hnodup : x.scopes.Nodup)
    (hpins : ∀ s, (if pinsScope s (a.context c) then 1 else 0) + k.pins.count s =
      (if pinsScope s x then 1 else 0) + k'.pins.count s)
    (hstack : ∀ s, (if stacksScope s (a.context c) then 1 else 0) + k.loose.count s =
      (if stacksScope s x then 1 else 0) + k'.loose.count s)
    (hrefs : ∀ d, d ≠ c → (if hasParent d (a.context c) then 1 else 0) + k.mentions.count d =
      (if hasParent d x then 1 else 0) + k'.mentions.count d)
    (hrefs_c : x.captured → x.refs = b.count (hasParent c) + k'.mentions.count c)
    (hrefs_pos : x.captured → 0 < x.refs)
    (hrank : ∃ rank : ContextId → Nat, ∀ d p, (b.context d).parent = some p → rank p < rank d) :
    b.Exact k' := by
  have hfr : ∀ s, b.frame s = a.frame s := fun s => by unfold frame; rw [hframes]
  refine ⟨ho, hmention, hparent, ?_, ?_, ?_, ?_, ?_, ?_, ?_, ?_, ?_, hrank⟩
  · intro d s hs
    rw [hframes]
    rw [hctx] at hs
    split at hs
    · exact hscope s hs
    · exact h.scope_lt d s hs
  · exact fun s hs => by rw [hframes]; exact hpin s hs
  · exact fun s hs => by rw [hframes]; exact hloose s hs
  · intro d
    rw [hctx]
    split
    · exact hnodup
    · exact h.scopes_nodup d
  · intro s hs
    rw [hframes] at hs
    have h1 := h.pins_eq s hs
    have h2 := hpins s
    have h3 := hcount (pinsScope s) rfl
    rw [hfr]
    omega
  · intro s hs
    rw [hframes] at hs
    have h1 := h.live_eq s hs
    have h2 := hstack s
    have h3 := hcount (stacksScope s) rfl
    rw [hfr]
    omega
  · intro d hd
    rw [hctx] at hd ⊢
    by_cases he : d = c
    · subst he
      rw [if_pos rfl] at hd ⊢
      exact hrefs_c hd
    · rw [if_neg he] at hd ⊢
      have h1 := h.refs_eq d hd
      have h2 := hrefs d he
      have h3 := hcount (hasParent d) rfl
      omega
  · intro d hd
    rw [hctx] at hd ⊢
    split at hd
    · rename_i he
      rw [if_pos he]
      exact hrefs_pos hd
    · rename_i he
      rw [if_neg he]
      exact h.refs_pos d hd
  · intro s hs
    rw [hframes] at hs
    rw [Idle, hfr, hfree]
    exact h.free_iff s hs

theorem of_setContext (h : a.Exact k) {k' : Holdings} {c : ContextId} {x : Context}
    (hc : a.InUse c) (hp : x.parent = (a.context c).parent)
    (hmention : ∀ d ∈ k'.mentions, a.InUse d)
    (hscope : ∀ s ∈ x.scopes, s.index < a.frames.size)
    (hpin : ∀ s ∈ k'.pins, s.index < a.frames.size)
    (hloose : ∀ s ∈ k'.loose, s.index < a.frames.size)
    (hnodup : x.scopes.Nodup)
    (hpins : ∀ s, (if pinsScope s (a.context c) then 1 else 0) + k.pins.count s =
      (if pinsScope s x then 1 else 0) + k'.pins.count s)
    (hstack : ∀ s, (if stacksScope s (a.context c) then 1 else 0) + k.loose.count s =
      (if stacksScope s x then 1 else 0) + k'.loose.count s)
    (hrefs : ∀ d, d ≠ c → k.mentions.count d = k'.mentions.count d)
    (hrefs_c : x.captured → x.refs = a.count (hasParent c) + k'.mentions.count c)
    (hrefs_pos : x.captured → 0 < x.refs) : (a.setContext c x).Exact k' := by
  have hctx := a.context_setContext hc.1 x
  have hpar : ∀ d, ((a.setContext c x).context d).parent = (a.context d).parent := by
    intro d
    rw [hctx]
    split
    · rename_i he
      rw [hp, he]
    · rfl
  have hsame : ∀ d, hasParent d x = hasParent d (a.context c) := fun d => by simp [hasParent, hp]
  have hcount : (a.setContext c x).count (hasParent c) = a.count (hasParent c) := by
    have := a.count_setContext hc.1 x (hasParent c)
    rw [hsame] at this
    omega
  refine h.of_context rfl rfl (h.orderly.setContext hc x) hctx
    (fun p _ => a.count_setContext hc.1 x p) (by simpa using hmention) ?_ hscope hpin hloose hnodup
    hpins hstack ?_ (by rw [hcount]; exact hrefs_c) hrefs_pos ?_
  · intro d p hd
    rw [hpar] at hd
    exact (a.inUse_setContext c x p).mpr (h.parent_inUse d p hd)
  · intro d hd
    rw [hsame, hrefs d hd]
  · obtain ⟨rank, hrank⟩ := h.ranked
    exact ⟨rank, fun d p hd => hrank d p (by rw [← hpar]; exact hd)⟩

/-- A loose frame is put onto a stack. -/
theorem stack {ls : List ScopeId} {s : ScopeId} {c : ContextId}
    (h : a.Exact { k with loose := s :: ls }) (hc : a.InUse c)
    (hcap : (a.context c).captured = false) :
    (a.setContext c { a.context c with scopes := s :: (a.context c).scopes }).Exact
      { k with loose := ls } := by
  have hnot : s ∉ (a.context c).scopes := h.loose_not_mem List.mem_cons_self hcap
  refine h.of_setContext hc rfl h.mention_inUse ?_ h.pin_lt
    (fun t ht => h.loose_lt t (List.mem_cons_of_mem _ ht))
    (List.nodup_cons.mpr ⟨hnot, h.scopes_nodup c⟩) ?_ ?_ (fun _ _ => rfl) ?_ ?_
  · intro t ht
    rcases List.mem_cons.mp ht with rfl | ht
    · exact h.loose_lt t List.mem_cons_self
    · exact h.scope_lt c t ht
  · simp [pinsScope, hcap]
  · intro t
    by_cases he : t = s
    · subst he
      simp [stacksScope, hcap, hnot]
      omega
    · simp [stacksScope, hcap, he, List.count_cons_of_ne (Ne.symm he)]
  · simp [hcap]
  · simp [hcap]

theorem unstack {s : ScopeId} {rest : List ScopeId} {c : ContextId} (h : a.Exact k)
    (hc : a.InUse c) (hcap : (a.context c).captured = false)
    (hs : (a.context c).scopes = s :: rest) :
    (a.setContext c { a.context c with scopes := rest }).Exact
      { k with loose := s :: k.loose } := by
  have hnodup := h.scopes_nodup c
  rw [hs] at hnodup
  obtain ⟨hnot, hrest⟩ := List.nodup_cons.mp hnodup
  have hlt : ∀ t ∈ s :: rest, t.index < a.frames.size := hs ▸ h.scope_lt c
  refine h.of_setContext hc rfl h.mention_inUse (fun t ht => hlt t (List.mem_cons_of_mem _ ht))
    h.pin_lt ?_ hrest ?_ ?_ (fun _ _ => rfl) ?_ ?_
  · intro t ht
    rcases List.mem_cons.mp ht with rfl | ht
    · exact hlt t List.mem_cons_self
    · exact h.loose_lt t ht
  · simp [pinsScope, hcap]
  · intro t
    by_cases he : t = s
    · subst he
      simp [stacksScope, hcap, hs, hnot]
      omega
    · simp [stacksScope, hcap, hs, he, List.count_cons_of_ne (Ne.symm he)]
  · simp [hcap]
  · simp [hcap]

theorem retain (h : a.Exact k) {c : ContextId} (hc : a.InUse c) :
    (a.retain c).Exact { k with mentions := c :: k.mentions } := by
  have hmention : ∀ d ∈ c :: k.mentions, a.InUse d := by
    intro d hd
    rcases List.mem_cons.mp hd with rfl | hd
    · exact hc
    · exact h.mention_inUse d hd
  simp only [Arena.retain]
  split <;> rename_i hcap
  · refine h.of_setContext hc rfl hmention (h.scope_lt c) h.pin_lt h.loose_lt (h.scopes_nodup c)
      (fun _ => rfl) (fun _ => rfl) ?_ ?_ (fun _ => Nat.succ_pos _)
    · exact fun d hd => (List.count_cons_of_ne (Ne.symm hd)).symm
    · intro _
      have := h.refs_eq c hcap
      simp only [List.count_cons_self]
      omega
  · refine h.congr_mentions hmention fun d hd => List.count_cons_of_ne ?_
    rintro rfl
    exact hcap hd

/-- One of several mentions of a frozen context is given up. -/
theorem unmention {ms : List ContextId} {c : ContextId}
    (h : a.Exact { k with mentions := c :: ms }) (hcap : (a.context c).captured)
    (hrefs : 1 < (a.context c).refs) :
    (a.setContext c { a.context c with refs := (a.context c).refs - 1 }).Exact
      { k with mentions := ms } := by
  refine h.of_setContext (h.captured_inUse hcap) rfl
    (fun d hd => h.mention_inUse d (List.mem_cons_of_mem _ hd)) (h.scope_lt c) h.pin_lt h.loose_lt
    (h.scopes_nodup c) (fun _ => rfl) (fun _ => rfl) ?_ ?_ ?_
  · exact fun d hd => List.count_cons_of_ne (Ne.symm hd)
  · intro _
    have hrc := h.refs_eq c hcap
    rw [List.count_cons_self] at hrc
    show (a.context c).refs - 1 = a.count (hasParent c) + ms.count c
    omega
  · intro _
    show 0 < (a.context c).refs - 1
    omega

theorem rank_extend (h : a.Exact k) {b : Arena α} {c : ContextId} {x : Context}
    (hctx : ∀ d, b.context d = if d = c then x else a.context d)
    (hc : ∀ d, (a.context d).parent ≠ some c) (hx : x.parent ≠ some c) :
    ∃ rank : ContextId → Nat, ∀ d p, (b.context d).parent = some p → rank p < rank d := by
  obtain ⟨rank, hrank⟩ := h.ranked
  refine ⟨fun d => if d = c then x.parent.elim 0 (rank · + 1) else rank d, ?_⟩
  intro d p hp
  rw [hctx] at hp
  by_cases hd : d = c
  · rw [if_pos hd] at hp
    have hpc : p ≠ c := fun he => hx (he ▸ hp)
    simp [hd, hpc, hp]
  · rw [if_neg hd] at hp
    have hpc : p ≠ c := fun he => hc d (he ▸ hp)
    simp only [hd, hpc, if_false]
    exact hrank d p hp

/-- The new context in a fresh slot takes over what is held for it. -/
theorem of_allocContext (h : a.Exact k) {l : Holdings} {x : Context}
    (hx : ∀ p, x.parent = some p → a.InUse p)
    (hmention : ∀ d ∈ l.mentions, a.InUse d ∨ d = (a.allocContext x).1)
    (hscope : ∀ s ∈ x.scopes, s.index < a.frames.size)
    (hpin : ∀ s ∈ l.pins, s.index < a.frames.size)
    (hloose : ∀ s ∈ l.loose, s.index < a.frames.size)
    (hnodup : x.scopes.Nodup)
    (hpins : ∀ s, k.pins.count s = (if pinsScope s x then 1 else 0) + l.pins.count s)
    (hstack : ∀ s, k.loose.count s = (if stacksScope s x then 1 else 0) + l.loose.count s)
    (hrefs : ∀ d, a.InUse d →
      k.mentions.count d = (if hasParent d x then 1 else 0) + l.mentions.count d)
    (hrefs_c : x.captured → x.refs = l.mentions.count (a.allocContext x).1)
    (hrefs_pos : x.captured → 0 < x.refs) : (a.allocContext x).2.Exact l := by
  have ho := h.orderly
  have hfresh : ¬ a.InUse (a.allocContext x).1 := allocContext_fresh x
  have hctx := ho.context_allocContext x
  have huse := ho.inUse_allocContext x
  have hempty : a.context (a.allocContext x).1 = {} := ho.context_of_not_inUse hfresh
  have hnone : ∀ d, (a.context d).parent ≠ some (a.allocContext x).1 :=
    fun d hd => hfresh (h.parent_inUse d _ hd)
  have hself : x.parent ≠ some (a.allocContext x).1 := fun hp => hfresh (hx _ hp)
  have hparent : ∀ d p, ((a.allocContext x).2.context d).parent = some p →
      (a.allocContext x).2.InUse p := by
    intro d p hp
    rw [hctx] at hp
    refine (huse p).mpr (.inr ?_)
    split at hp
    · exact hx p hp
    · exact h.parent_inUse d p hp
  have hzero : (a.allocContext x).2.count (hasParent (a.allocContext x).1) = 0 := by
    rw [ho.count_allocContext x rfl, a.count_eq_zero fun d => by simp [hasParent, hnone d]]
    simp [hasParent, hself]
  refine h.of_context (by simp) (by simp) (ho.allocContext x) hctx ?_ ?_ hparent hscope hpin hloose
    hnodup ?_ ?_ ?_ ?_ hrefs_pos (h.rank_extend hctx hnone hself)
  · intro p hp
    rw [ho.count_allocContext x hp, hempty, hp]
    rfl
  · exact fun d hd => (huse d).mpr ((hmention d hd).symm)
  · exact fun s => by rw [hempty]; simpa using hpins s
  · exact fun s => by rw [hempty]; simpa using hstack s
  · intro d hd
    rw [hempty]
    by_cases hin : a.InUse d
    · simpa using hrefs d hin
    · have h1 : k.mentions.count d = 0 :=
        List.count_eq_zero.mpr fun hm => hin (h.mention_inUse d hm)
      have h2 : l.mentions.count d = 0 :=
        List.count_eq_zero.mpr fun hm => (hmention d hm).elim hin hd
      have h3 : hasParent d x = false := by
        simp only [hasParent, decide_eq_false_iff_not]
        exact fun hp => hin (hx d hp)
      simp [h1, h2, h3]
  · intro hcap
    rw [hzero, Nat.zero_add]
    exact hrefs_c hcap

theorem of_freeContext (h : a.Exact k) {m : List ContextId} {c : ContextId} {k' : Holdings}
    (hc : a.InUse c) (hchild : ∀ d, (a.context d).parent ≠ some c) (hcm : c ∉ m)
    (hmem : ∀ d ∈ m, d ∈ k.mentions)
    (hcount : ∀ d, d ≠ c → k.mentions.count d = m.count d)
    (hk : k'.mentions = (a.context c).parent.toList ++ m)
    (hpin : ∀ s ∈ k'.pins, s.index < a.frames.size)
    (hloose : ∀ s ∈ k'.loose, s.index < a.frames.size)
    (hpins : ∀ s, (if pinsScope s (a.context c) then 1 else 0) + k.pins.count s = k'.pins.count s)
    (hstack : ∀ s, (if stacksScope s (a.context c) then 1 else 0) + k.loose.count s =
      k'.loose.count s) : (a.freeContext c).Exact k' := by
  have hctx := hc.context_freeContext
  have huse : ∀ d, d ≠ c → a.InUse d → (a.freeContext c).InUse d :=
    fun d hd hin => (inUse_freeContext c d).mpr ⟨hd, hin⟩
  have hpar : ∀ d p, ((a.freeContext c).context d).parent = some p →
      (a.context d).parent = some p := by
    intro d p hp
    rw [hctx] at hp
    split at hp
    · cases hp
    · exact hp
  refine h.of_context rfl rfl (h.orderly.freeContext hc) hctx ?_ ?_ ?_ (by simp) hpin hloose
    List.nodup_nil (by simpa using hpins) (by simpa using hstack) ?_ (by simp) (by simp) ?_
  · intro p hp
    rw [hc.count_freeContext hp, hp]
    rfl
  · intro d hd
    rw [hk, List.mem_append, Option.mem_toList] at hd
    rcases hd with hd | hd
    · exact huse d (fun he => hchild c (he ▸ hd)) (h.parent_inUse c d hd)
    · exact huse d (fun he => hcm (he ▸ hd)) (h.mention_inUse d (hmem d hd))
  · intro d p hp
    exact huse p (fun he => hchild d (he ▸ hpar d p hp)) (h.parent_inUse d p (hpar d p hp))
  · intro d hd
    rw [hk, List.count_append, hcount d hd]
    cases hp : (a.context c).parent with
    | none => simp [hasParent, hp]
    | some p =>
      by_cases he : p = d
      · simp [hasParent, hp, he]
      · simp [hasParent, hp, he]
  · obtain ⟨rank, hrank⟩ := h.ranked
    exact ⟨rank, fun d p hp => hrank d p (hpar d p hp)⟩

/-- A frozen context is freed with its last mention. -/
theorem thaw {ms : List ContextId} {c : ContextId} (h : a.Exact { k with mentions := c :: ms })
    (hcap : (a.context c).captured) (hrefs : (a.context c).refs ≤ 1) :
    (a.freeContext c).Exact
      { k with
        mentions := (a.context c).parent.toList ++ ms
        pins := (a.context c).scopes.reverse ++ k.pins } := by
  have hr := h.refs_eq c hcap
  rw [List.count_cons_self] at hr
  have hchild : ∀ d, (a.context d).parent ≠ some c := by
    intro d hd
    have : 0 < a.count (hasParent c) := a.count_pos (c := d) (by simp [hasParent, hd]) rfl
    omega
  refine h.of_freeContext (m := ms) (h.captured_inUse hcap) hchild
    (List.count_eq_zero.mp (by omega)) (fun d hd => List.mem_cons_of_mem _ hd)
    (fun d hd => List.count_cons_of_ne (Ne.symm hd)) rfl ?_ h.loose_lt ?_ ?_
  · intro s hs
    rcases List.mem_append.mp hs with hs | hs
    · exact h.scope_lt c s (List.mem_reverse.mp hs)
    · exact h.pin_lt s hs
  · intro s
    rw [List.count_append, List.count_reverse, (h.scopes_nodup c).count]
    simp [pinsScope, hcap]
  · simp [stacksScope, hcap]

/-- A context with an empty stack that nothing mentions is freed. -/
theorem close (h : a.Exact k) {c : ContextId} (hc : a.InUse c)
    (hcap : (a.context c).captured = false) (hscopes : (a.context c).scopes = [])
    (hchild : ∀ d, (a.context d).parent ≠ some c) (hcm : c ∉ k.mentions) :
    (a.freeContext c).Exact
      { k with mentions := (a.context c).parent.toList ++ k.mentions } :=
  h.of_freeContext hc hchild hcm (fun _ hd => hd) (fun _ _ => rfl) rfl h.pin_lt h.loose_lt
    (by simp [pinsScope, hcap]) (by simp [stacksScope, hscopes])

end Exact

end Classlet.Arena
