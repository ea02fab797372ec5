import Classlet.Proofs.Error.Frames
import Classlet.Proofs.Run.Adequacy

/-! # The trace that is kept

When an error leaves the statements of a module, its trace is kept.  A module can also fail after
its statements have run, if what it lists under `exports` cannot be exported.  That error has no
trace, and the trace that was kept before stays (`evaluateParsed_keeps_trace`). -/

namespace Classlet

open Eval

variable {e : Engine} {p : Path} {source : Option String} {statements : List Statement}
  {parent : Option ModuleRef} {s t : State} {error : RuntimeError}

/-- Running statements as the module at a path, in `s`, comes to their end in `t`, and there is a
cause against the exports of the module. -/
def FailsToExport (e : Engine) (p : Path) (source : Option String) (statements : List Statement)
    (parent : Option ModuleRef) (s t : State) (cause : Cause) : Prop :=
  ∃ r s₁ completion, newModule (Location.canonical p) source parent s = (.ok r, s₁) ∧
    withActivation (s₁.memory.topLevel r) (e.execStatements statements) s₁ = (.ok completion, t) ∧
    computeExports t.memory (t.scopes.baseBindings (t.memory.moduleInfo r).context) = .error cause

/-- Publishing a module fails with the cause against its exports, and changes nothing. -/
theorem of_publish_raised {r : ModuleRef} (h : publish r s = (.raised error, t)) :
    ∃ cause, computeExports s.memory (s.scopes.baseBindings (s.memory.moduleInfo r).context) =
      .error cause ∧ error = .ofCause cause ∧ t = s := by
  unfold publish at h
  dsimp only at h
  split at h
  · cases h
  · rename_i cause hcause
    cases h
    exact ⟨cause, hcause, rfl, rfl⟩

theorem of_tracing_ok {x : Eval Completion} {completion : Completion}
    (h : tracing x s = (.ok completion, t)) : x s = (.ok completion, t) := by
  unfold tracing at h
  rcases hr : x s with ⟨_ | _ | _, s₁⟩ <;> rw [hr] at h <;> cases h
  rfl

/-- **The kept trace is that of the error that is reported.**  Where the error is one against the
exports of the module, its trace is empty, and what is kept is what the statements left. -/
theorem evaluateParsed_keeps_trace
    (h : evaluateParsed e p source statements parent s = (.raised error, t)) :
    t.lastTrace = error.trace ∨
      ∃ cause, FailsToExport e p source statements parent s t cause ∧ error = .ofCause cause ∧
        error.trace = [] := by
  obtain ⟨r, s₁, hnew⟩ : ∃ r s₁,
      newModule (Location.canonical p) source parent s = (.ok r, s₁) := by
    rcases s.reclaim_cases with ⟨s₀, -, hreclaim⟩ | ⟨fault, hfault⟩
    · exact ⟨_, _, newModule_of_reclaim hreclaim⟩
    · unfold evaluateParsed runModule newModule at h
      simp only [bind_apply, hfault] at h
      cases h
  rw [Moment.evaluateParsed_of_newModule statements hnew] at h
  rcases of_bind_raised h with hrun | ⟨completion, s₂, hrun, h⟩
  · -- an error left the statements
    obtain ⟨s₂, rfl, -⟩ := of_tracing_raised hrun
    exact .inl rfl
  · rcases of_bind_raised h with hpublish | ⟨_, _, -, h⟩
    · obtain ⟨cause, hcause, rfl, rfl⟩ := of_publish_raised hpublish
      exact .inr ⟨cause, ⟨_, _, completion, hnew, of_tracing_ok hrun, hcause⟩, rfl, rfl⟩
    · cases h

/-- A module that fails in its only statement. -/
theorem evaluateParsed_keeps_trace_unbound_name :
    let e := engine {} (fun _ => .unknown) 1
    let code : List Statement := [.mk 1 (.expression (.var "x"))]
    ∃ error t, evaluateParsed e ⟨"a"⟩ none code none .initial = (.raised error, t) ∧
      (t.lastTrace = error.trace ∨
        ∃ cause, FailsToExport e ⟨"a"⟩ none code none .initial t cause ∧ error = .ofCause cause ∧
          error.trace = []) := by
  intro e code
  have hrun : (evaluateParsed e ⟨"a"⟩ none code none .initial).1.error?.isSome := by
    decide +kernel
  generalize hr : evaluateParsed e ⟨"a"⟩ none code none .initial = r at hrun
  obtain ⟨_ | error | _, t⟩ := r
  · cases hrun
  · exact ⟨error, t, rfl, evaluateParsed_keeps_trace hr⟩
  · cases hrun

/-- A statement fails in one module, and the exports of the next one cannot be computed: the error
that is reported has no trace, and the trace of the one before is still kept. -/
theorem lastTrace_outlives_failed_exports :
    let e := engine {} (fun _ => .unknown) 1
    let s := (evaluateParsed e ⟨"a"⟩ none [.mk 1 (.expression (.var "x"))] none .initial).2
    let code : List Statement := [.mk 1 (.assign [.var "exports"] [.literal (.int 5)])]
    let r := evaluateParsed e ⟨"b"⟩ none code none s
    r.1.error?.map RuntimeError.trace = some [] ∧
      r.2.lastTrace = [{ file := "a.crv", line := 1, source := "x;", scope := moduleScope }] := by
  decide +kernel

end Classlet
