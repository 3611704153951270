/-
  Lib.Machine — runs of deterministic machines with partial steps.

  The environment chooses the events; `step` says what the machine does, or
  that the event cannot happen.  A run is a list of events.  `Along` restricts
  a run by a condition on every event and the state that meets it, and
  `run_induction` is the rule by which invariants of runs are proved.
-/
import Mathlib

namespace Flotilla.Machine

variable {S E : Type}

/-- The state after the events, if each could happen. -/
def run (step : S → E → Option S) (s : S) : List E → Option S
  | [] => some s
  | e :: es => (step s e).bind fun s' => run step s' es

/-- Every event of the run meets a state that `P` allows it in. -/
def Along (step : S → E → Option S) (P : S → E → Prop) : S → List E → Prop
  | _, [] => True
  | s, e :: es => P s e ∧ ∀ s' ∈ step s e, Along step P s' es

instance Along.decidable (step : S → E → Option S) (P : S → E → Prop)
    [hP : ∀ s e, Decidable (P s e)] : ∀ s es, Decidable (Along step P s es)
  | _, [] => inferInstanceAs (Decidable True)
  | s, e :: es =>
      have : ∀ s', Decidable (Along step P s' es) := fun s' => Along.decidable step P s' es
      inferInstanceAs (Decidable (P s e ∧ ∀ s' ∈ step s e, Along step P s' es))

/-- Where a run ends can be computed. -/
instance decidableExistsSome (o : Option S) (P : S → Prop) [DecidablePred P] :
    Decidable (∃ s, o = some s ∧ P s) :=
  decidable_of_iff (o.any (fun s => P s) = true) (by
    simp only [Option.any_eq_true, decide_eq_true_eq])

variable {step : S → E → Option S} {P : S → E → Prop}

theorem run_cons {s s' : S} {e : E} {es : List E} (h : run step s (e :: es) = some s') :
    ∃ s₁, step s e = some s₁ ∧ run step s₁ es = some s' :=
  Option.bind_eq_some_iff.mp h

theorem run_induction {I : S → Prop}
    (hstep : ∀ s e s', I s → P s e → step s e = some s' → I s') {s s' : S} {es : List E}
    (h : I s) (halong : Along step P s es) (hrun : run step s es = some s') : I s' := by
  induction es generalizing s with
  | nil =>
    cases hrun
    exact h
  | cons e es ih =>
    obtain ⟨s₁, hs₁, hrest⟩ := run_cons hrun
    exact ih (hstep s e s₁ h halong.1 hs₁) (halong.2 s₁ hs₁) hrest

theorem Along.and {Q : S → E → Prop} {s : S} {es : List E} (hp : Along step P s es)
    (hq : Along step Q s es) : Along step (fun s e => P s e ∧ Q s e) s es := by
  induction es generalizing s with
  | nil => trivial
  | cons e es ih =>
    exact ⟨⟨hp.1, hq.1⟩, fun s' hs' => ih (hp.2 s' hs') (hq.2 s' hs')⟩

theorem along_of_forall {Q : E → Prop} {es : List E} (h : ∀ e ∈ es, Q e) (s : S) :
    Along step (fun _ e => Q e) s es := by
  induction es generalizing s with
  | nil => trivial
  | cons e es ih =>
    exact ⟨h e List.mem_cons_self, fun s' _ => ih (fun e' he' => h e' (List.mem_cons_of_mem e he')) s'⟩

theorem run_invariant {I : S → Prop} (hstep : ∀ s e s', I s → step s e = some s' → I s')
    {s s' : S} {es : List E} (h : I s) (hrun : run step s es = some s') : I s' :=
  run_induction (fun s e s' hs _ => hstep s e s' hs) h (along_of_forall (fun _ _ => trivial) s) hrun

end Flotilla.Machine
