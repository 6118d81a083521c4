import Nca.Lib.Returns

/-!
Runs of a program, command by command. A run is followed by a run of an abstract program; what
each acceptable command keeps between the two holds at the end.
-/

namespace Nca.Lib

variable {ε ι σ τ : Type} {step : σ → ι → Except ε σ} {ok ok' : σ → ι → Prop} {cmds : List ι}
  {s : σ} {t : τ}

/-- Every command is acceptable in the state that it finds. -/
def EveryCmd (step : σ → ι → Except ε σ) (ok : σ → ι → Prop) : σ → List ι → Prop
  | _, [] => True
  | s, cmd :: rest => ok s cmd ∧ ∀ s', step s cmd = .ok s' → EveryCmd step ok s' rest

theorem everyCmd_mono (weaker : ∀ s cmd, ok s cmd → ok' s cmd)
    (every : EveryCmd step ok s cmds) : EveryCmd step ok' s cmds := by
  induction cmds generalizing s with
  | nil => trivial
  | cons cmd rest ih => exact ⟨weaker s cmd every.1, fun s' next => ih (every.2 s' next)⟩

theorem everyCmd_always {ok : ι → Prop} (each : ∀ cmd ∈ cmds, ok cmd) :
    EveryCmd step (fun _ => ok) s cmds := by
  induction cmds generalizing s with
  | nil => trivial
  | cons cmd rest ih =>
    obtain ⟨first, others⟩ := List.forall_mem_cons.mp each
    exact ⟨first, fun s' _ => ih others⟩

/-- The run rule. -/
theorem run_follows {abs : τ → ι → τ} {R : σ → τ → Prop}
    (keeps : ∀ s t cmd, R s t → ok s cmd → Returns (step s cmd) (R · (abs t cmd)))
    (start : R s t) (every : EveryCmd step ok s cmds) :
    Returns (cmds.foldlM step s) (R · (cmds.foldl abs t)) := by
  induction cmds generalizing s t with
  | nil => exact returns_pure start
  | cons cmd rest ih =>
    obtain ⟨s', next, related⟩ := keeps s t cmd start every.1
    rw [List.foldlM_cons, next, ok_bind]
    exact ih related (every.2 s' next)

end Nca.Lib
