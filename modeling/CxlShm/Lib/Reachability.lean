import Mathlib.Logic.Relation

/-!
# States reached by steps that meet a condition

A machine is a partial step function `step : σ → α → Option σ`.  Its runs are restricted by a
condition `ok` on single steps (what callers promise, what a hypothesis rules out), and
`Reachable step ok s₀` is the set of states at the end of such a run.
-/

namespace Reachability

variable {σ α : Type*}

/-- The states reached from `s₀` by steps of `step` that all satisfy `ok`. -/
inductive Reachable (step : σ → α → Option σ) (ok : σ → α → σ → Prop) (s₀ : σ) : σ → Prop
  | start : Reachable step ok s₀ s₀
  | next {s s' : σ} {a : α} : Reachable step ok s₀ s → step s a = some s' → ok s a s' →
      Reachable step ok s₀ s'

variable {step : σ → α → Option σ} {ok ok' : σ → α → σ → Prop} {s₀ s s' : σ}

/-- What holds at the start and is kept by every permitted step holds in every reachable state. -/
theorem Reachable.invariant {I : σ → Prop} (start : I s₀)
    (kept : ∀ s a s', I s → step s a = some s' → ok s a s' → I s')
    (h : Reachable step ok s₀ s) : I s := by
  induction h with
  | start => exact start
  | next _ hstep hok ih => exact kept _ _ _ ih hstep hok

/-- The step rule for an invariant that leans on one proved before. -/
theorem Reachable.invariant_of {J I : σ → Prop} (before : ∀ s, Reachable step ok s₀ s → J s)
    (start : I s₀)
    (kept : ∀ s a s', J s → J s' → I s → step s a = some s' → ok s a s' → I s')
    (h : Reachable step ok s₀ s) : I s := by
  induction h with
  | start => exact start
  | next reached hstep hok ih =>
    exact kept _ _ _ (before _ reached) (before _ (reached.next hstep hok)) ih hstep hok

theorem Reachable.mono (weaker : ∀ s a s', ok s a s' → ok' s a s')
    (h : Reachable step ok s₀ s) : Reachable step ok' s₀ s := by
  induction h with
  | start => exact .start
  | next _ hstep hok ih => exact .next ih hstep (weaker _ _ _ hok)

/-- As `Reachable.mono`, where the weaker condition is needed in reachable states only. -/
theorem Reachable.mono_of
    (weaker : ∀ s a s', Reachable step ok s₀ s → step s a = some s' → ok s a s' → ok' s a s')
    (h : Reachable step ok s₀ s) : Reachable step ok' s₀ s := by
  induction h with
  | start => exact .start
  | next before hstep hok ih => exact .next ih hstep (weaker _ _ _ before hstep hok)

theorem Reachable.trans (h : Reachable step ok s₀ s) (h' : Reachable step ok s s') :
    Reachable step ok s₀ s' := by
  induction h' with
  | start => exact h
  | next _ hstep hok ih => exact .next ih hstep hok

/-! ## Runs that are computed -/

/-- The state after a list of actions, if every step is defined and passes the check. -/
def checkedRun (step : σ → α → Option σ) (check : σ → α → σ → Bool) : σ → List α → Option σ
  | s, [] => some s
  | s, a :: as =>
    match step s a with
    | some s' => if check s a s' then checkedRun step check s' as else none
    | none => none

/-- A computed run is a run, if the check is sound in the states that satisfy `J`. -/
theorem reachable_of_checkedRun {check : σ → α → σ → Bool} {J : σ → Prop}
    (sound : ∀ s a s', J s → step s a = some s' → check s a s' = true → J s' ∧ ok s a s')
    {as : List α} (hs : Reachable step ok s₀ s) (hJ : J s)
    (run : checkedRun step check s as = some s') : Reachable step ok s₀ s' := by
  induction as generalizing s with
  | nil =>
    obtain rfl := Option.some.inj run
    exact hs
  | cons a as ih =>
    unfold checkedRun at run
    cases hstep : step s a with
    | none => simp [hstep] at run
    | some mid =>
      rw [hstep] at run
      by_cases passed : check s a mid = true
      · simp only [passed, if_true] at run
        obtain ⟨keeps, permitted⟩ := sound s a mid hJ hstep passed
        exact ih (hs.next hstep permitted) keeps run
      · simp [passed] at run

/-- As `reachable_of_checkedRun`, with a property of the last state that is computed too. -/
theorem exists_reachable_of_checkedRun {check : σ → α → σ → Bool} {J : σ → Prop}
    (sound : ∀ s a s', J s → step s a = some s' → check s a s' = true → J s' ∧ ok s a s')
    {as : List α} {P : σ → Bool} (hJ : J s₀)
    (run : (checkedRun step check s₀ as).any P = true) : ∃ s, Reachable step ok s₀ s ∧ P s = true := by
  cases last : checkedRun step check s₀ as with
  | none => simp [last] at run
  | some s => exact ⟨s, reachable_of_checkedRun sound .start hJ last, by simpa [last] using run⟩

end Reachability
