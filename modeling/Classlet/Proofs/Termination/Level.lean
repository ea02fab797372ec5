import Classlet.Proofs.Termination.Halts

/-! # How far code can still go

Code that is running can call functions until the limit of calls is reached, and can import the
texts that are not in its import chain.  `Program.level` combines the two, the texts coming first:
the call of a function goes one level deeper for the same module, while a module that is imported
adds its text to the chain, and then it does not matter how deep it stands.

Nothing that code does before its activation ends changes its level (`State.Reaches.level`). -/

namespace Classlet

open Eval

variable {P : Program} {s t : State} {b : Nat}

/-- Whether a path is that of a module in the import chain of the running code. -/
def State.inChain (s : State) (p : Path) : Bool :=
  s.activation.module.any fun r => s.memory.inImportChain r p

theorem State.inChain_congr (s : State) {p q : Path} (h : p.Same q) :
    s.inChain p = s.inChain q := by
  have hsame : ∀ x : Path, decide (x.Same p) = decide (x.Same q) := fun x =>
    decide_eq_decide.mpr ⟨fun hx => Eq.trans hx h, fun hx => Eq.trans hx (Eq.symm h)⟩
  unfold State.inChain Memory.inImportChain
  simp only [hsame]

namespace Program

variable (P)

/-- The number of texts that are not in the import chain of the running code. -/
def remaining (s : State) : Nat := P.texts.entries.countP fun entry => !s.inChain entry.1

/-- A bound on how far the running code can go. -/
def level (s : State) : Nat :=
  P.remaining s * (P.settings.maxCallDepth + 1) + (P.settings.maxCallDepth - s.depth)

end Program

/-- A tame state of a running module, at a level of at most `b`. -/
structure State.Ready (P : Program) (b : Nat) (s : State) : Prop where
  tame : s.Tame P
  inside : ∃ r, s.activation.module = some r
  level : P.level s ≤ b

/-! ### The import chain -/

theorem Memory.Keeps.moduleInfo {m n : Memory} (h : m.Keeps n) {r : ModuleRef}
    (hr : r.index < m.modules.size) : n.moduleInfo r = m.moduleInfo r := by
  obtain ⟨more, hmore⟩ := h.modules
  unfold Memory.moduleInfo
  rw [← Array.getElem?_toList, ← Array.getElem?_toList, ← hmore, List.getElem?_append_left hr]

theorem Memory.Tame.moduleInfo_parent {m : Memory} (h : m.Tame P) {r q : ModuleRef}
    (hq : (m.moduleInfo r).parent = some q) : q.index < r.index := by
  unfold Memory.moduleInfo at hq
  cases hd : m.modules[r.index]? with
  | none =>
      rw [hd] at hq
      cases hq
  | some d =>
      rw [hd] at hq
      exact (h.modules r.index d hd).parent q hq

/-- The importers of a module that was in memory stay the same, however many of them are asked
for. -/
theorem Memory.Keeps.any_importers {m n : Memory} (h : m.Keeps n) (hm : m.Tame P) (p : Path) :
    ∀ (fuel fuel' : Nat) {r : ModuleRef}, r.index < m.modules.size → r.index < fuel →
      r.index < fuel' →
      (n.importersFrom fuel r).any (fun q => decide ((n.moduleInfo q).path.Same p)) =
        (m.importersFrom fuel' r).any fun q => decide ((m.moduleInfo q).path.Same p)
  | fuel + 1, fuel' + 1, r, hr, hf, hf' => by
      rw [importersFrom, importersFrom, List.any_cons, List.any_cons, h.moduleInfo hr]
      cases hq : (m.moduleInfo r).parent with
      | none => rfl
      | some q =>
          have hlt := hm.moduleInfo_parent hq
          simp only [Option.elim_some]
          rw [h.any_importers hm p fuel fuel' (by omega) (by omega) (by omega)]

theorem Memory.Keeps.inImportChain {m n : Memory} (h : m.Keeps n) (hm : m.Tame P) {r : ModuleRef}
    (hr : r.index < m.modules.size) (p : Path) : n.inImportChain r p = m.inImportChain r p :=
  h.any_importers hm p _ _ hr (Nat.lt_succ_self _) (Nat.lt_succ_self _)

/-! ### Levels -/

namespace State.Reaches

theorem inChain (h : s.Reaches P t) (hs : s.Tame P) (p : Path) : t.inChain p = s.inChain p := by
  unfold State.inChain
  rw [h.activation]
  cases hr : s.activation.module with
  | none => rfl
  | some r => exact h.keeps.inImportChain hs.memory (hs.module r hr) p

theorem level (h : s.Reaches P t) (hs : s.Tame P) : P.level t = P.level s := by
  rw [Program.level, Program.level, Program.remaining, Program.remaining, h.depth]
  simp only [h.inChain hs]

theorem ready (h : s.Reaches P t) (hs : s.Ready P b) : t.Ready P b where
  tame := h.tame
  inside := by
    rw [h.activation]
    exact hs.inside
  level := by
    rw [h.level hs.tame]
    exact hs.level

end State.Reaches

/-! ### Modules that begin -/

/-- The module at a path has begun, imported by the code that ran in `s`. -/
structure State.Begins (P : Program) (s : State) (p : Path) (u : State) : Prop where
  tame : u.Tame P
  inside : ∃ r, u.activation.module = some r
  chain : ∀ q, u.inChain q = (decide (p.Same q) || s.inChain q)

namespace State.Begins

variable {u : State} {p : Path}

theorem ready (h : s.Begins P p u) : u.Ready P (P.level u) := ⟨h.tame, h.inside, le_rfl⟩

/-- A text that was not in the import chain joins it. -/
theorem remaining_lt (h : s.Begins P p u) (hp : (P.texts.find? p).isSome)
    (hnew : s.inChain p = false) : P.remaining u < P.remaining s := by
  obtain ⟨source, hsource⟩ := Option.isSome_iff_exists.mp hp
  obtain ⟨entry, hentry, -⟩ := Option.map_eq_some_iff.mp hsource
  have hmem := List.mem_of_find?_eq_some hentry
  have hsame : entry.1.Same p := by simpa using List.find?_some hentry
  have hbefore : s.inChain entry.1 = false := by
    rw [s.inChain_congr hsame, hnew]
  have himplies : ∀ e : Path × String, (!u.inChain e.1) = true → (!s.inChain e.1) = true := by
    intro e he
    rw [h.chain] at he
    simp_all
  unfold Program.remaining
  refine lt_of_le_of_ne (List.countP_mono_left fun e _ => himplies e) fun hcount => ?_
  rw [List.countP_eq_length_filter, List.countP_eq_length_filter] at hcount
  have hfilter := (List.monotone_filter_right P.texts.entries himplies).eq_of_length hcount
  have hin : entry ∈ P.texts.entries.filter fun e => !u.inChain e.1 := by
    rw [hfilter]
    exact List.mem_filter.mpr ⟨hmem, by simp [hbefore]⟩
  have hafter := (List.mem_filter.mp hin).2
  rw [h.chain, decide_eq_true (show p.Same entry.1 from Eq.symm hsame)] at hafter
  cases hafter

/-- **The code of a text that is imported stands at a lower level**, however deep it stands. -/
theorem level_lt (h : s.Begins P p u) (hp : (P.texts.find? p).isSome)
    (hnew : s.inChain p = false) : P.level u < P.level s := by
  have hlt := Nat.mul_le_mul_right (P.settings.maxCallDepth + 1) (h.remaining_lt hp hnew)
  rw [Nat.succ_mul] at hlt
  unfold Program.level
  omega

end State.Begins

theorem State.Ready.pushScope (hs : s.Ready P b) :
    State.Ready P b { s with scopes := (s.scopes.pushScope s.activation.context).2 } where
  tame := hs.tame.pushScope
  inside := hs.inside
  level := hs.level

end Classlet
