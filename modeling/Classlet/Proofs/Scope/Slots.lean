import Mathlib.Data.List.Nodup
import Mathlib.Data.List.Perm.Subperm
import Classlet.Scope.Arena

/-! # The slots of an arena

What reading a slot gives after a slot was written, and how counts over all contexts change.

A slot that is free holds an empty context (`Arena.Orderly`), and an empty context has no property
that is counted.  Counts therefore run over all slots, and say the same as counts over the slots
in use: putting a context into a slot adds what the context has (`count_allocContext`), and
freeing a slot takes it away (`count_freeContext`). -/

namespace Classlet.Arena

variable {α : Type} (a : Arena α)

/-- Whether a context is in use: its slot exists and is not free. -/
def InUse (c : ContextId) : Prop := c.index < a.contexts.size ∧ c ∉ a.freeContexts

instance (c : ContextId) : Decidable (a.InUse c) := inferInstanceAs (Decidable (_ ∧ _))

/-- Whether a frame is in use: its slot exists and is not free. -/
def FrameInUse (s : ScopeId) : Prop := s.index < a.frames.size ∧ s ∉ a.freeFrames

/-- The free lists name slots that exist, each once, and free slots of contexts hold empty ones. -/
structure Orderly : Prop where
  frames_nodup : a.freeFrames.Nodup
  frames_lt : ∀ s ∈ a.freeFrames, s.index < a.frames.size
  contexts_nodup : a.freeContexts.Nodup
  contexts_lt : ∀ c ∈ a.freeContexts, c.index < a.contexts.size
  vacant : ∀ c ∈ a.freeContexts, a.context c = {}

/-- The number of contexts with a property. -/
def count (p : Context → Bool) : Nat := a.contexts.countP p

/-- Contexts in different slots below a bound are not more than the bound. -/
theorem length_le_of_nodup {l : List ContextId} {n : Nat} (hl : l.Nodup)
    (hlt : ∀ c ∈ l, c.index < n) : l.length ≤ n := by
  have hmap : (l.map ContextId.index).Nodup :=
    hl.map fun c d h => by cases c; cases d; simpa using h
  have hsub : l.map ContextId.index ⊆ List.range n := by
    intro i hi
    obtain ⟨c, hc, rfl⟩ := List.mem_map.mp hi
    exact List.mem_range.mpr (hlt c hc)
  simpa using (hmap.subperm hsub).length_le

/-! ### Reading after writing -/

theorem context_of_size_le {c : ContextId} (h : a.contexts.size ≤ c.index) : a.context c = {} := by
  unfold context
  rw [Array.getElem?_eq_none h]
  rfl

theorem Orderly.context_of_not_inUse {a : Arena α} (ho : a.Orderly) {c : ContextId}
    (h : ¬ a.InUse c) : a.context c = {} := by
  by_cases hc : c ∈ a.freeContexts
  · exact ho.vacant c hc
  · exact a.context_of_size_le (Nat.le_of_not_lt fun hlt => h ⟨hlt, hc⟩)

theorem context_setContext {c : ContextId} (h : c.index < a.contexts.size) (x : Context)
    (d : ContextId) : (a.setContext c x).context d = if d = c then x else a.context d := by
  obtain ⟨i⟩ := c
  obtain ⟨j⟩ := d
  simp only [setContext, context, Array.getElem?_setIfInBounds, ContextId.mk.injEq]
  by_cases hij : i = j
  · subst hij
    have hi : i < a.contexts.size := h
    simp [hi]
  · simp [hij, Ne.symm hij]

theorem frame_modifyFrame {s : ScopeId} (h : s.index < a.frames.size) (f : Frame α → Frame α)
    (t : ScopeId) : (a.modifyFrame s f).frame t = if t = s then f (a.frame s) else a.frame t := by
  obtain ⟨i⟩ := s
  obtain ⟨j⟩ := t
  simp only [modifyFrame, frame, Array.getElem?_modify, ScopeId.mk.injEq]
  by_cases hij : i = j
  · subst hij
    have hi : i < a.frames.size := h
    simp [hi]
  · simp [hij, Ne.symm hij]

@[simp] theorem setContext_frames (c : ContextId) (x : Context) :
    (a.setContext c x).frames = a.frames := rfl

@[simp] theorem setContext_freeFrames (c : ContextId) (x : Context) :
    (a.setContext c x).freeFrames = a.freeFrames := rfl

@[simp] theorem setContext_freeContexts (c : ContextId) (x : Context) :
    (a.setContext c x).freeContexts = a.freeContexts := rfl

@[simp] theorem setContext_dropped (c : ContextId) (x : Context) :
    (a.setContext c x).dropped = a.dropped := rfl

@[simp] theorem size_setContext (c : ContextId) (x : Context) :
    (a.setContext c x).contexts.size = a.contexts.size := by simp [setContext]

@[simp] theorem frame_setContext (c : ContextId) (x : Context) (s : ScopeId) :
    (a.setContext c x).frame s = a.frame s := rfl

@[simp] theorem modifyFrame_contexts (s : ScopeId) (f : Frame α → Frame α) :
    (a.modifyFrame s f).contexts = a.contexts := rfl

@[simp] theorem modifyFrame_freeFrames (s : ScopeId) (f : Frame α → Frame α) :
    (a.modifyFrame s f).freeFrames = a.freeFrames := rfl

@[simp] theorem modifyFrame_freeContexts (s : ScopeId) (f : Frame α → Frame α) :
    (a.modifyFrame s f).freeContexts = a.freeContexts := rfl

@[simp] theorem modifyFrame_dropped (s : ScopeId) (f : Frame α → Frame α) :
    (a.modifyFrame s f).dropped = a.dropped := rfl

@[simp] theorem size_modifyFrame (s : ScopeId) (f : Frame α → Frame α) :
    (a.modifyFrame s f).frames.size = a.frames.size := by simp [modifyFrame]

@[simp] theorem context_modifyFrame (s : ScopeId) (f : Frame α → Frame α) (c : ContextId) :
    (a.modifyFrame s f).context c = a.context c := rfl

@[simp] theorem inUse_setContext (c : ContextId) (x : Context) (d : ContextId) :
    (a.setContext c x).InUse d ↔ a.InUse d := by simp [InUse]

theorem Orderly.setContext {a : Arena α} (ho : a.Orderly) {c : ContextId} (hc : a.InUse c)
    (x : Context) : (a.setContext c x).Orderly := by
  refine ⟨ho.frames_nodup, ho.frames_lt, ho.contexts_nodup, by simpa using ho.contexts_lt, ?_⟩
  intro d hd
  have hne : d ≠ c := fun he => hc.2 (he ▸ hd)
  rw [a.context_setContext hc.1, if_neg hne]
  exact ho.vacant d hd

/-! ### Counts -/

theorem count_congr {a b : Arena α} (h : b.contexts = a.contexts) (p : Context → Bool) :
    b.count p = a.count p := by
  unfold count
  rw [h]

theorem count_pos {p : Context → Bool} {c : ContextId} (hc : p (a.context c)) (h0 : p {} = false) :
    0 < a.count p := by
  have hlt : c.index < a.contexts.size := by
    rcases Nat.lt_or_ge c.index a.contexts.size with h | h
    · exact h
    · rw [a.context_of_size_le h, h0] at hc
      cases hc
  have hget : a.context c = a.contexts[c.index] := by
    simp [context, Array.getElem?_eq_getElem hlt]
  rw [hget] at hc
  exact Array.countP_pos_iff.mpr ⟨_, Array.getElem_mem hlt, hc⟩

theorem exists_of_count_pos {p : Context → Bool} (h : 0 < a.count p) :
    ∃ c : ContextId, c.index < a.contexts.size ∧ p (a.context c) := by
  obtain ⟨x, hx, hp⟩ := Array.countP_pos_iff.mp h
  obtain ⟨i, hi, rfl⟩ := Array.mem_iff_getElem.mp hx
  refine ⟨⟨i⟩, hi, ?_⟩
  simpa [context, Array.getElem?_eq_getElem hi] using hp

theorem count_eq_zero {p : Context → Bool} (h : ∀ c, p (a.context c) = false) : a.count p = 0 := by
  rcases Nat.eq_zero_or_pos (a.count p) with h0 | hpos
  · exact h0
  · obtain ⟨c, _, hc⟩ := a.exists_of_count_pos hpos
    rw [h c] at hc
    cases hc

theorem count_setContext {c : ContextId} (h : c.index < a.contexts.size) (x : Context)
    (p : Context → Bool) :
    (a.setContext c x).count p + (if p (a.context c) then 1 else 0) =
      a.count p + (if p x then 1 else 0) := by
  have hget : a.context c = a.contexts[c.index] := by
    simp [context, Array.getElem?_eq_getElem h]
  have hle : (if p a.contexts[c.index] then 1 else 0) ≤ a.contexts.countP p := by
    split
    · exact Array.countP_pos_iff.mpr ⟨_, Array.getElem_mem h, ‹_›⟩
    · exact Nat.zero_le _
  simp only [count, setContext, Array.setIfInBounds_def, h, dif_pos, hget]
  rw [Array.countP_set h]
  omega

/-- Different contexts with a property are not more than there are. -/
theorem length_le_count {p : Context → Bool} (h0 : p {} = false) : ∀ {l : List ContextId}
    {a : Arena α}, l.Nodup → (∀ c ∈ l, p (a.context c)) → l.length ≤ a.count p
  | [], a, _, _ => Nat.zero_le _
  | c :: l, a, hl, hp => by
      obtain ⟨hc, hl⟩ := List.nodup_cons.mp hl
      have hpc := hp c List.mem_cons_self
      have hlt : c.index < a.contexts.size := by
        by_contra hge
        rw [a.context_of_size_le (Nat.le_of_not_lt hge), h0] at hpc
        cases hpc
      -- without the first of them there is one less
      have hcount := a.count_setContext hlt {} p
      rw [hpc, h0, if_pos rfl, if_neg Bool.false_ne_true] at hcount
      have hrest : l.length ≤ (a.setContext c {}).count p := by
        refine length_le_count h0 hl fun d hd => ?_
        rw [a.context_setContext hlt, if_neg (ne_of_mem_of_not_mem hd hc)]
        exact hp d (List.mem_cons_of_mem _ hd)
      rw [List.length_cons]
      omega

/-! ### Allocation -/

@[simp] theorem allocFrame_contexts : a.allocFrame.2.contexts = a.contexts := by
  unfold allocFrame
  split <;> rfl

@[simp] theorem allocFrame_freeContexts : a.allocFrame.2.freeContexts = a.freeContexts := by
  unfold allocFrame
  split <;> rfl

@[simp] theorem allocFrame_dropped : a.allocFrame.2.dropped = a.dropped := by
  unfold allocFrame
  split <;> rfl

@[simp] theorem context_allocFrame (c : ContextId) :
    a.allocFrame.2.context c = a.context c := by
  simp [context]

@[simp] theorem allocContext_frames (x : Context) :
    (a.allocContext x).2.frames = a.frames := by
  unfold allocContext
  split <;> rfl

@[simp] theorem allocContext_freeFrames (x : Context) :
    (a.allocContext x).2.freeFrames = a.freeFrames := by
  unfold allocContext
  split <;> rfl

@[simp] theorem allocContext_dropped (x : Context) :
    (a.allocContext x).2.dropped = a.dropped := by
  unfold allocContext
  split <;> rfl

@[simp] theorem frame_allocContext (x : Context) (s : ScopeId) :
    (a.allocContext x).2.frame s = a.frame s := by
  simp [frame]

section alloc
variable {a}

theorem allocFrame_fresh : ¬ a.FrameInUse a.allocFrame.1 := by
  rintro ⟨hlt, hfree⟩
  unfold allocFrame at hlt hfree
  split at hlt <;> rename_i h
  · rw [h] at hfree
    exact hfree List.mem_cons_self
  · exact Nat.lt_irrefl _ hlt

theorem Orderly.allocFrame_lt (ho : a.Orderly) :
    a.allocFrame.1.index < a.allocFrame.2.frames.size := by
  unfold allocFrame
  split <;> rename_i h
  · rename_i s rest
    simpa using ho.frames_lt s (by rw [h]; exact List.mem_cons_self)
  · simp

theorem Orderly.frame_allocFrame (ho : a.Orderly) (t : ScopeId) :
    a.allocFrame.2.frame t = if t = a.allocFrame.1 then {} else a.frame t := by
  obtain ⟨j⟩ := t
  unfold allocFrame
  split <;> rename_i h
  · rename_i s rest
    have hs := ho.frames_lt s (by rw [h]; exact List.mem_cons_self)
    obtain ⟨i⟩ := s
    simp only [frame, Array.getElem?_setIfInBounds, ScopeId.mk.injEq]
    by_cases hij : i = j
    · subst hij
      have hi : i < a.frames.size := hs
      simp [hi]
    · simp [hij, Ne.symm hij]
  · simp only [frame, Array.getElem?_push, ScopeId.mk.injEq]
    by_cases hij : j = a.frames.size <;> simp [hij]

theorem Orderly.frameInUse_allocFrame (ho : a.Orderly) (t : ScopeId) :
    a.allocFrame.2.FrameInUse t ↔ t = a.allocFrame.1 ∨ a.FrameInUse t := by
  obtain ⟨j⟩ := t
  unfold allocFrame FrameInUse
  split <;> rename_i h
  · rename_i s rest
    have hs := ho.frames_lt s (by rw [h]; exact List.mem_cons_self)
    have hn : s ∉ rest := by
      have := ho.frames_nodup
      rw [h] at this
      exact (List.nodup_cons.mp this).1
    rw [h]
    simp only [Array.size_setIfInBounds, List.mem_cons, not_or]
    constructor
    · rintro ⟨hlt, hr⟩
      by_cases he : (⟨j⟩ : ScopeId) = s
      · exact .inl he
      · exact .inr ⟨hlt, he, hr⟩
    · rintro (rfl | ⟨hlt, _, hr⟩)
      · exact ⟨hs, hn⟩
      · exact ⟨hlt, hr⟩
  · rw [h]
    simp only [Array.size_push, List.not_mem_nil, not_false_eq_true, and_true, ScopeId.mk.injEq]
    omega

theorem Orderly.allocFrame (ho : a.Orderly) : a.allocFrame.2.Orderly := by
  refine ⟨?_, ?_, by simpa using ho.contexts_nodup, by simpa using ho.contexts_lt,
    by simpa using ho.vacant⟩
  · unfold Arena.allocFrame
    split <;> rename_i h
    · have := ho.frames_nodup
      rw [h] at this
      exact (List.nodup_cons.mp this).2
    · exact ho.frames_nodup
  · intro s hs
    unfold Arena.allocFrame at hs ⊢
    split at hs <;> rename_i h
    · simpa using ho.frames_lt s (by rw [h]; exact List.mem_cons_of_mem _ hs)
    · exact Nat.lt_of_lt_of_le (ho.frames_lt s hs) (by simp)

theorem allocContext_fresh (x : Context) : ¬ a.InUse (a.allocContext x).1 := by
  rintro ⟨hlt, hfree⟩
  unfold allocContext at hlt hfree
  split at hlt <;> rename_i h
  · rw [h] at hfree
    exact hfree List.mem_cons_self
  · exact Nat.lt_irrefl _ hlt

theorem Orderly.context_allocContext (ho : a.Orderly) (x : Context) (d : ContextId) :
    (a.allocContext x).2.context d = if d = (a.allocContext x).1 then x else a.context d := by
  obtain ⟨j⟩ := d
  unfold allocContext
  split <;> rename_i h
  · rename_i c rest
    have hc := ho.contexts_lt c (by rw [h]; exact List.mem_cons_self)
    exact a.context_setContext hc x ⟨j⟩
  · simp only [context, Array.getElem?_push, ContextId.mk.injEq]
    by_cases hij : j = a.contexts.size <;> simp [hij]

theorem Orderly.inUse_allocContext (ho : a.Orderly) (x : Context) (d : ContextId) :
    (a.allocContext x).2.InUse d ↔ d = (a.allocContext x).1 ∨ a.InUse d := by
  obtain ⟨j⟩ := d
  unfold allocContext InUse
  split <;> rename_i h
  · rename_i c rest
    have hc := ho.contexts_lt c (by rw [h]; exact List.mem_cons_self)
    have hn : c ∉ rest := by
      have := ho.contexts_nodup
      rw [h] at this
      exact (List.nodup_cons.mp this).1
    rw [h]
    simp only [Array.size_setIfInBounds, List.mem_cons, not_or]
    constructor
    · rintro ⟨hlt, hr⟩
      by_cases he : (⟨j⟩ : ContextId) = c
      · exact .inl he
      · exact .inr ⟨hlt, he, hr⟩
    · rintro (rfl | ⟨hlt, _, hr⟩)
      · exact ⟨hc, hn⟩
      · exact ⟨hlt, hr⟩
  · rw [h]
    simp only [Array.size_push, List.not_mem_nil, not_false_eq_true, and_true, ContextId.mk.injEq]
    omega

theorem Orderly.count_allocContext (ho : a.Orderly) (x : Context) {p : Context → Bool}
    (h0 : p {} = false) :
    (a.allocContext x).2.count p = a.count p + (if p x then 1 else 0) := by
  unfold allocContext
  split <;> rename_i h
  · rename_i c rest
    have hmem : c ∈ a.freeContexts := by rw [h]; exact List.mem_cons_self
    have := a.count_setContext (ho.contexts_lt c hmem) x p
    rw [ho.vacant c hmem, h0] at this
    exact this
  · simp [count, Array.countP_push]

theorem Orderly.allocContext (ho : a.Orderly) (x : Context) : (a.allocContext x).2.Orderly := by
  have hfree : ∀ d ∈ (a.allocContext x).2.freeContexts,
      d ∈ a.freeContexts ∧ d ≠ (a.allocContext x).1 := by
    intro d hd
    unfold Arena.allocContext at hd ⊢
    split at hd <;> rename_i h
    · rename_i c rest
      have hn := ho.contexts_nodup
      rw [h] at hn
      refine ⟨by rw [h]; exact List.mem_cons_of_mem _ hd, ?_⟩
      rintro rfl
      exact (List.nodup_cons.mp hn).1 hd
    · rw [h] at hd
      cases hd
  have hsize : a.contexts.size ≤ (a.allocContext x).2.contexts.size := by
    unfold Arena.allocContext
    split <;> simp
  refine ⟨by simpa using ho.frames_nodup, by simpa using ho.frames_lt, ?_, ?_, ?_⟩
  · unfold Arena.allocContext
    split <;> rename_i h
    · have := ho.contexts_nodup
      rw [h] at this
      exact (List.nodup_cons.mp this).2
    · exact ho.contexts_nodup
  · exact fun d hd => Nat.lt_of_lt_of_le (ho.contexts_lt d (hfree d hd).1) hsize
  · intro d hd
    rw [ho.context_allocContext, if_neg (hfree d hd).2]
    exact ho.vacant d (hfree d hd).1

end alloc

/-! ### Freeing -/

section free
variable {a}

@[simp] theorem freeContext_frames (c : ContextId) : (a.freeContext c).frames = a.frames := rfl

@[simp] theorem freeContext_freeFrames (c : ContextId) :
    (a.freeContext c).freeFrames = a.freeFrames := rfl

@[simp] theorem freeContext_freeContexts (c : ContextId) :
    (a.freeContext c).freeContexts = c :: a.freeContexts := rfl

@[simp] theorem freeContext_dropped (c : ContextId) : (a.freeContext c).dropped = a.dropped := rfl

@[simp] theorem size_freeContext (c : ContextId) :
    (a.freeContext c).contexts.size = a.contexts.size := a.size_setContext c {}

theorem InUse.context_freeContext {c : ContextId} (hc : a.InUse c) (d : ContextId) :
    (a.freeContext c).context d = if d = c then {} else a.context d :=
  a.context_setContext hc.1 {} d

theorem inUse_freeContext (c d : ContextId) :
    (a.freeContext c).InUse d ↔ d ≠ c ∧ a.InUse d := by
  simp only [InUse, size_freeContext, freeContext_freeContexts, List.mem_cons, not_or]
  tauto

theorem InUse.count_freeContext {c : ContextId} (hc : a.InUse c) {p : Context → Bool}
    (h0 : p {} = false) :
    (a.freeContext c).count p + (if p (a.context c) then 1 else 0) = a.count p := by
  have := a.count_setContext hc.1 {} p
  rw [h0] at this
  simpa [freeContext, count] using this

theorem Orderly.freeContext (ho : a.Orderly) {c : ContextId} (hc : a.InUse c) :
    (a.freeContext c).Orderly := by
  refine ⟨ho.frames_nodup, ho.frames_lt, List.nodup_cons.mpr ⟨hc.2, ho.contexts_nodup⟩, ?_, ?_⟩
  · intro d hd
    rw [size_freeContext]
    rcases List.mem_cons.mp hd with rfl | hd
    · exact hc.1
    · exact ho.contexts_lt d hd
  · intro d hd
    rw [hc.context_freeContext]
    split
    · rfl
    · rename_i hne
      exact ho.vacant d ((List.mem_cons.mp hd).resolve_left hne)

theorem Orderly.modifyFrame (ho : a.Orderly) (s : ScopeId) (f : Frame α → Frame α) :
    (a.modifyFrame s f).Orderly :=
  ⟨ho.frames_nodup, by simpa using ho.frames_lt, ho.contexts_nodup, ho.contexts_lt, ho.vacant⟩

/-- Whether a frame is neither on a stack nor pinned. -/
def Idle (a : Arena α) (s : ScopeId) : Prop := (a.frame s).live = false ∧ (a.frame s).pins = 0

/-- Whether a frame that is on no stack is pinned by closures only that are bound in it. -/
def Spent (a : Arena α) (closure? : α → Option ContextId) (s : ScopeId) : Prop :=
  (a.frame s).live = false ∧ (a.frame s).pins ≠ 0 ∧ (a.frame s).pins = a.selfPins closure? s

section collect
variable {closure? : α → Option ContextId} {s t : ScopeId}

theorem collectFrame_of_idle (h : a.Idle s) :
    a.collectFrame s closure? = { a.emptyFrame s with freeFrames := s :: a.freeFrames } := by
  simp [collectFrame, h.1, h.2]

theorem collectFrame_of_spent (h : a.Spent closure? s) :
    a.collectFrame s closure? = a.emptyFrame s := by
  rw [collectFrame]
  simp only [h.1, Bool.false_eq_true, if_false, if_neg h.2.1, if_pos h.2.2]

theorem collectFrame_of_busy (hidle : ¬ a.Idle s) (hspent : ¬ a.Spent closure? s) :
    a.collectFrame s closure? = a := by
  rw [collectFrame]
  dsimp only
  split
  · rfl
  · rename_i hlive
    rw [Bool.not_eq_true] at hlive
    rw [if_neg fun hpins => hidle ⟨hlive, hpins⟩]
    split
    · rename_i hself
      exact absurd ⟨hlive, fun hpins => hidle ⟨hlive, hpins⟩, hself⟩ hspent
    · rfl

/-- A frame is freed, emptied or left alone. -/
theorem collectFrame_cases (a : Arena α) (closure? : α → Option ContextId) (s : ScopeId) :
    (a.Idle s ∧ a.collectFrame s closure? =
        { a.emptyFrame s with freeFrames := s :: a.freeFrames }) ∨
      (¬ a.Idle s ∧ a.Spent closure? s ∧ a.collectFrame s closure? = a.emptyFrame s) ∨
      (¬ a.Idle s ∧ a.collectFrame s closure? = a) := by
  by_cases hidle : a.Idle s
  · exact .inl ⟨hidle, collectFrame_of_idle hidle⟩
  · by_cases hspent : a.Spent closure? s
    · exact .inr (.inl ⟨hidle, hspent, collectFrame_of_spent hspent⟩)
    · exact .inr (.inr ⟨hidle, collectFrame_of_busy hidle hspent⟩)

@[simp] theorem collectFrame_contexts : (a.collectFrame s closure?).contexts = a.contexts := by
  rcases a.collectFrame_cases closure? s with ⟨-, h⟩ | ⟨-, -, h⟩ | ⟨-, h⟩ <;> rw [h] <;> rfl

@[simp] theorem collectFrame_freeContexts :
    (a.collectFrame s closure?).freeContexts = a.freeContexts := by
  rcases a.collectFrame_cases closure? s with ⟨-, h⟩ | ⟨-, -, h⟩ | ⟨-, h⟩ <;> rw [h] <;> rfl

@[simp] theorem collectFrame_dropped : (a.collectFrame s closure?).dropped = a.dropped := by
  rcases a.collectFrame_cases closure? s with ⟨-, h⟩ | ⟨-, -, h⟩ | ⟨-, h⟩ <;> rw [h] <;> rfl

@[simp] theorem size_collectFrame :
    (a.collectFrame s closure?).frames.size = a.frames.size := by
  rcases a.collectFrame_cases closure? s with ⟨-, h⟩ | ⟨-, -, h⟩ | ⟨-, h⟩ <;> rw [h]
  · exact a.size_modifyFrame s _
  · exact a.size_modifyFrame s _

@[simp] theorem context_collectFrame (c : ContextId) :
    (a.collectFrame s closure?).context c = a.context c := by
  simp [context]

theorem frame_emptyFrame (hs : s.index < a.frames.size) (t : ScopeId) :
    (a.emptyFrame s).frame t = if t = s then { a.frame s with values := [] } else a.frame t :=
  a.frame_modifyFrame hs _ t

/-- Collecting a frame can empty it, and changes no other frame. -/
theorem frame_collectFrame (hs : s.index < a.frames.size) (closure? : α → Option ContextId)
    (t : ScopeId) :
    (a.collectFrame s closure?).frame t = a.frame t ∨
      (t = s ∧ (a.Idle s ∨ a.Spent closure? s) ∧
        (a.collectFrame s closure?).frame t = { a.frame s with values := [] }) := by
  rcases a.collectFrame_cases closure? s with ⟨hidle, h⟩ | ⟨-, hspent, h⟩ | ⟨-, h⟩
  · have hframe : (a.collectFrame s closure?).frame t = (a.emptyFrame s).frame t := by
      rw [h]
      rfl
    rw [hframe, frame_emptyFrame hs]
    split
    · exact .inr ⟨‹_›, .inl hidle, rfl⟩
    · exact .inl rfl
  · rw [h, frame_emptyFrame hs]
    split
    · exact .inr ⟨‹_›, .inr hspent, rfl⟩
    · exact .inl rfl
  · exact .inl (by rw [h])

theorem pins_collectFrame (hs : s.index < a.frames.size) (t : ScopeId) :
    ((a.collectFrame s closure?).frame t).pins = (a.frame t).pins := by
  rcases frame_collectFrame hs closure? t with h | ⟨rfl, -, h⟩ <;> rw [h]

theorem live_collectFrame (hs : s.index < a.frames.size) (t : ScopeId) :
    ((a.collectFrame s closure?).frame t).live = (a.frame t).live := by
  rcases frame_collectFrame hs closure? t with h | ⟨rfl, -, h⟩ <;> rw [h]

theorem mem_freeFrames_collectFrame :
    t ∈ (a.collectFrame s closure?).freeFrames ↔ (t = s ∧ a.Idle s) ∨ t ∈ a.freeFrames := by
  rcases a.collectFrame_cases closure? s with ⟨hidle, h⟩ | ⟨hidle, -, h⟩ | ⟨hidle, h⟩ <;>
    simp [h, hidle, emptyFrame]

theorem Orderly.collectFrame (ho : a.Orderly) (hs : a.FrameInUse s) :
    (a.collectFrame s closure?).Orderly := by
  refine ⟨?_, ?_, by simpa using ho.contexts_nodup, by simpa using ho.contexts_lt,
    by simpa using ho.vacant⟩
  · rcases a.collectFrame_cases closure? s with ⟨-, h⟩ | ⟨-, -, h⟩ | ⟨-, h⟩ <;> rw [h]
    · exact List.nodup_cons.mpr ⟨hs.2, ho.frames_nodup⟩
    · exact ho.frames_nodup
    · exact ho.frames_nodup
  · intro t ht
    rw [size_collectFrame]
    rcases mem_freeFrames_collectFrame.mp ht with ⟨rfl, _⟩ | ht
    · exact hs.1
    · exact ho.frames_lt t ht

end collect

theorem Orderly.length_freeContexts_le (ho : a.Orderly) :
    a.freeContexts.length ≤ a.contexts.size :=
  length_le_of_nodup ho.contexts_nodup ho.contexts_lt

end free

end Classlet.Arena
