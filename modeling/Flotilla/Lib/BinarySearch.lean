/-
  Lib.BinarySearch — where a predicate stops to hold.

  The loop keeps a half-open interval: the predicate holds below it and fails
  from its end on.  It does not matter which point of the interval is tried
  (`mid`), as long as it lies inside.
-/
import Mathlib

namespace Flotilla.BinarySearch

def search (mid : ℕ → ℕ → ℕ) (p : ℕ → Bool) : ℕ → ℕ → ℕ → ℕ
  | 0, lo, _ => lo
  | fuel + 1, lo, hi =>
      if lo < hi then
        if p (mid lo hi) then search mid p fuel (mid lo hi + 1) hi
        else search mid p fuel lo (mid lo hi)
      else lo

theorem search_spec {mid : ℕ → ℕ → ℕ} {p : ℕ → Bool} {n : ℕ}
    (hmid : ∀ lo hi, lo < hi → lo ≤ mid lo hi ∧ mid lo hi < hi)
    (hmono : ∀ i j, i ≤ j → j < n → p j = true → p i = true) {fuel lo hi : ℕ}
    (hfuel : hi - lo < fuel) (hlohi : lo ≤ hi) (hhi : hi ≤ n) (hbelow : ∀ i < lo, p i = true)
    (habove : ∀ i, hi ≤ i → i < n → p i = false) :
    search mid p fuel lo hi ≤ n ∧ (∀ i < search mid p fuel lo hi, p i = true) ∧
      ∀ i, search mid p fuel lo hi ≤ i → i < n → p i = false := by
  induction fuel generalizing lo hi with
  | zero => omega
  | succ fuel ih =>
    rw [search]
    by_cases hlt : lo < hi
    · obtain ⟨hlo, hmidlt⟩ := hmid lo hi hlt
      rw [if_pos hlt]
      cases hp : p (mid lo hi) with
      | true =>
        -- everything up to the middle holds
        have hbelow' : ∀ i < mid lo hi + 1, p i = true := fun i hi' =>
          hmono i (mid lo hi) (by omega) (by omega) hp
        exact ih (by omega) (by omega) hhi hbelow' habove
      | false =>
        have habove' : ∀ i, mid lo hi ≤ i → i < n → p i = false := by
          intro i hi' hin
          by_contra hne
          have := hmono (mid lo hi) i hi' hin (by simpa using hne)
          rw [hp] at this
          cases this
        exact ih (by omega) hlo (by omega) hbelow habove'
    · rw [if_neg hlt]
      obtain rfl : lo = hi := by omega
      exact ⟨hhi, hbelow, habove⟩

end Flotilla.BinarySearch
