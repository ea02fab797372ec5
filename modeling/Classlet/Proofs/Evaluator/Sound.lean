import Classlet.Proofs.Evaluator.Code
import Classlet.Proofs.Memory.Growth
import Classlet.Proofs.Scope.Extends

/-! # Sound states

Between any two steps of a program the scopes are in order (`State.Sound`): the counts of the arena
are exact, the contexts of closures that are held or dropped are frozen, the parent of a context is
frozen or the context of the global names, every context has a scope, and the code that is running
has a stack of its own.

That parents are frozen or the root is what makes calls safe to undo: the context of a call that has
ended is neither, so that no other context can be waiting behind it. -/

namespace Classlet

open Arena (Exact Adds Extends)

/-! ### Sound states -/

/-- The closures of the functions that are not gone. -/
def State.held (s : State) : List ContextId := s.memory.held s.gone

/-- The scopes of a running program are in order. -/
structure State.Sound (s : State) : Prop where
  exact : s.scopes.Exact { mentions := s.held ++ s.scopes.dropped }
  frozen : ∀ c ∈ s.held ++ s.scopes.dropped, (s.scopes.context c).captured
  parent : ∀ c p, (s.scopes.context c).parent = some p →
    (s.scopes.context p).captured ∨ p = s.root
  stack_ne : ∀ c, s.scopes.InUse c → (s.scopes.context c).scopes ≠ []
  root : s.scopes.Open s.root
  here : s.scopes.Open s.activation.context
  /-- What is gone has been there. -/
  gone_lt : ∀ r ∈ s.gone, r.index < s.memory.functions.size

namespace State.Sound

variable {s s' : State}

theorem held_inUse (h : s.Sound) {c : ContextId} (hc : c ∈ s.held) : s.scopes.InUse c :=
  h.exact.mention_inUse c (List.mem_append_left _ hc)

theorem held_captured (h : s.Sound) {c : ContextId} (hc : c ∈ s.held) :
    (s.scopes.context c).captured :=
  h.frozen c (List.mem_append_left _ hc)

/-- A change that keeps the shape of every context keeps the state sound. -/
theorem of_shape (h : s.Sound)
    (hexact : s'.scopes.Exact { mentions := s.held ++ s.scopes.dropped })
    (hclosures : s'.memory.closures = s.memory.closures) (hgone : s'.gone = s.gone)
    (hdropped : s'.scopes.dropped = s.scopes.dropped)
    (huse : ∀ c, s'.scopes.InUse c ↔ s.scopes.InUse c)
    (hparent : ∀ c, (s'.scopes.context c).parent = (s.scopes.context c).parent)
    (hcap : ∀ c, (s'.scopes.context c).captured = (s.scopes.context c).captured)
    (hstack : ∀ c, s.scopes.InUse c → (s'.scopes.context c).scopes ≠ [])
    (hroot : s'.root = s.root) (hhere : s'.activation = s.activation) : s'.Sound := by
  have hheld : s'.held = s.held := by rw [held, held, Memory.held, Memory.held, hclosures, hgone]
  constructor
  case exact =>
    rw [hheld, hdropped]
    exact hexact
  case frozen =>
    intro c hc
    rw [hheld, hdropped] at hc
    rw [hcap]
    exact h.frozen c hc
  case parent =>
    intro c p hp
    rw [hparent] at hp
    rw [hcap, hroot]
    exact h.parent c p hp
  case stack_ne => exact fun c hc => hstack c ((huse c).mp hc)
  case root =>
    rw [hroot]
    exact ⟨(huse _).mpr h.root.1, (hcap _).trans h.root.2⟩
  case here =>
    rw [hhere]
    exact ⟨(huse _).mpr h.here.1, (hcap _).trans h.here.2⟩
  case gone_lt =>
    have hsize : s'.memory.functions.size = s.memory.functions.size := by
      simpa [Memory.closures] using congrArg List.length hclosures
    rw [hgone, hsize]
    exact h.gone_lt

/-- A change that leaves the scopes and the functions alone keeps the state sound. -/
theorem of_scopes (h : s.Sound) (hscopes : s'.scopes = s.scopes)
    (hclosures : s'.memory.closures = s.memory.closures) (hgone : s'.gone = s.gone)
    (hroot : s'.root = s.root) (hhere : s'.activation = s.activation) : s'.Sound := by
  refine h.of_shape ?_ hclosures hgone (by rw [hscopes]) ?_ ?_ ?_ ?_ hroot hhere
  · rw [hscopes]
    exact h.exact
  all_goals
    intro c
    rw [hscopes]
  exact h.stack_ne c

/-- A new context whose parent is in order keeps the state sound. -/
theorem add (h : s.Sound) {x : ContextId} {y : Context} {news : List ScopeId}
    (hadds : s.scopes.Adds s'.scopes x y news)
    (hexact : s'.scopes.Exact { mentions := s'.held ++ s'.scopes.dropped })
    (hheld : ∀ c ∈ s'.held, (c = x ∧ y.captured) ∨ c ∈ s.held)
    (hdropped : s'.scopes.dropped = s.scopes.dropped)
    (hparent : ∀ p, y.parent = some p → (s.scopes.context p).captured ∨ p = s.root)
    (hstack : y.scopes ≠ []) (hroot : s'.root = s.root)
    (hhere : s'.activation = s.activation)
    (hgone : ∀ r ∈ s'.gone, r.index < s'.memory.functions.size) : s'.Sound := by
  have hne : ∀ c, s.scopes.InUse c → c ≠ x := by
    rintro c hc rfl
    exact hadds.fresh hc
  have hold : ∀ c, s.scopes.InUse c → (s'.scopes.context c).Agrees (s.scopes.context c) :=
    fun c hc => hadds.context_old c (hne c hc)
  have hopen : ∀ c, s.scopes.Open c → s'.scopes.Open c := fun c hc =>
    ⟨(hadds.inUse c).mpr (.inr hc.1), (hold c hc.1).captured.trans hc.2⟩
  -- a parent that is frozen was there before, and is frozen still
  have hkeep : ∀ p, (s.scopes.context p).captured ∨ p = s.root →
      (s'.scopes.context p).captured ∨ p = s'.root := by
    rintro p (hp | hp)
    · rw [(hold p (h.exact.captured_inUse hp)).captured]
      exact .inl hp
    · exact .inr (hp.trans hroot.symm)
  constructor
  case exact => exact hexact
  case frozen =>
    have hfrozen : ∀ c ∈ s.held ++ s.scopes.dropped, (s'.scopes.context c).captured := by
      intro c hc
      rw [(hold c (h.exact.mention_inUse c hc)).captured]
      exact h.frozen c hc
    intro c hc
    rw [hdropped] at hc
    rcases List.mem_append.mp hc with hc | hc
    · rcases hheld c hc with ⟨rfl, hcap⟩ | hc
      · exact hadds.context_new.captured.trans hcap
      · exact hfrozen c (List.mem_append_left _ hc)
    · exact hfrozen c (List.mem_append_right _ hc)
  case parent =>
    intro c p hp
    by_cases he : c = x
    · rw [he, hadds.context_new.parent] at hp
      exact hkeep p (hparent p hp)
    · rw [(hadds.context_old c he).parent] at hp
      exact hkeep p (h.parent c p hp)
  case stack_ne =>
    intro c hc
    rcases (hadds.inUse c).mp hc with rfl | hc
    · rw [hadds.context_new.scopes]
      exact hstack
    · rw [(hold c hc).scopes]
      exact h.stack_ne c hc
  case root =>
    rw [hroot]
    exact hopen _ h.root
  case here =>
    rw [hhere]
    exact hopen _ h.here
  case gone_lt => exact hgone

/-- Giving up contexts that are neither the root nor running keeps the state sound. -/
theorem survives (h : s.Sound) {closure? : Value → Option ContextId} {lost : List ContextId}
    {dropped : List ContextId}
    (hexact : s'.scopes.Exact { mentions := s'.held ++ s'.scopes.dropped })
    (hsurvives : Arena.Survives closure? lost { s.scopes with dropped := dropped } s'.scopes)
    (hmentions : ∀ c ∈ s'.held ++ s'.scopes.dropped, c ∈ s.held ++ s.scopes.dropped)
    (hroot : s'.root = s.root) (hhere : s'.activation = s.activation) (hkept : s.root ∉ lost)
    (hkept' : s.activation.context ∉ lost)
    (hgone : ∀ r ∈ s'.gone, r.index < s'.memory.functions.size) : s'.Sound := by
  have hcap : ∀ d, s'.scopes.InUse d →
      (s'.scopes.context d).captured = (s.scopes.context d).captured :=
    fun d hd => (hsurvives.context d hd).captured
  have hopen : ∀ d, s.scopes.Open d → d ∉ lost → s'.scopes.Open d := by
    intro d hd hlost
    have huse := hsurvives.opened d hd.1 hd.2 hlost
    exact ⟨huse, (hcap d huse).trans hd.2⟩
  constructor
  case exact => exact hexact
  case frozen =>
    intro c hc
    rw [hcap c (hexact.mention_inUse c hc)]
    exact h.frozen c (hmentions c hc)
  case parent =>
    intro d p hp
    have hd : s'.scopes.InUse d := by
      by_contra hn
      rw [hexact.orderly.context_of_not_inUse hn] at hp
      cases hp
    rw [hcap p (hexact.parent_inUse d p hp), hroot]
    rw [(hsurvives.context d hd).parent] at hp
    exact h.parent d p hp
  case stack_ne =>
    intro d hd
    rw [(hsurvives.context d hd).scopes]
    exact h.stack_ne d (hsurvives.inUse d hd)
  case root =>
    rw [hroot]
    exact hopen _ h.root hkept
  case here =>
    rw [hhere]
    exact hopen _ h.here hkept'
  case gone_lt => exact hgone

end State.Sound

end Classlet
