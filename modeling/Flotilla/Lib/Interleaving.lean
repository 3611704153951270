/-
  Lib.Interleaving — a history of entries of several logs.

  A history lists the entries of all logs in the order in which they were
  appended.  `logOf` is one of the logs, `rank` the index in its log that an
  entry of the history has: positions of the history and indices of the logs
  are the same thing (`logOf_rank`, `exists_rank`), in the same order
  (`rank_lt`), and both keep their meaning when the history grows.
-/
import Mathlib

namespace Flotilla.Interleaving

variable {p : Nat}

theorem eq_cut {α : Type} {h : List α} {e : α} (hp : h[p]? = some e) :
    h = h.take p ++ e :: h.drop (p + 1) := by
  obtain ⟨hlt, rfl⟩ := List.getElem?_eq_some_iff.mp hp
  rw [List.getElem_cons_drop, List.take_append_drop]

variable {ι α : Type} [DecidableEq ι]

def logOf (history : List (ι × α)) (i : ι) : List α :=
  (history.filter (fun e => e.1 = i)).map Prod.snd

/-- How many entries of log `i` stand before position `p`. -/
def rank (history : List (ι × α)) (i : ι) (p : Nat) : Nat := (logOf (history.take p) i).length

theorem logOf_append (h h' : List (ι × α)) (i : ι) :
    logOf (h ++ h') i = logOf h i ++ logOf h' i := by
  unfold logOf
  rw [List.filter_append, List.map_append]

theorem logOf_cons_self (i : ι) (a : α) (h : List (ι × α)) :
    logOf ((i, a) :: h) i = a :: logOf h i := by
  unfold logOf
  rw [List.filter_cons_of_pos (by simp)]
  rfl

variable {i : ι} {a : α} {h : List (ι × α)}

theorem logOf_cons_of_ne {j : ι} (hji : j ≠ i) (a : α) (h : List (ι × α)) :
    logOf ((j, a) :: h) i = logOf h i := by
  unfold logOf
  rw [List.filter_cons_of_neg (by simpa using hji)]

theorem mem_logOf : a ∈ logOf h i ↔ (i, a) ∈ h := by
  simp [logOf]

theorem logOf_concat_self (h : List (ι × α)) (i : ι) (a : α) :
    logOf (h ++ [(i, a)]) i = logOf h i ++ [a] := by
  rw [logOf_append, logOf_cons_self]
  rfl

theorem logOf_concat_of_ne {j : ι} (hji : j ≠ i) (h : List (ι × α)) (a : α) :
    logOf (h ++ [(j, a)]) i = logOf h i := by
  rw [logOf_append, logOf_cons_of_ne hji]
  exact List.append_nil _

theorem logOf_cut (hp : h[p]? = some (i, a)) :
    logOf h i = logOf (h.take p) i ++ a :: logOf (h.drop (p + 1)) i := by
  conv_lhs => rw [eq_cut hp]
  rw [logOf_append, logOf_cons_self]

theorem logOf_rank (hp : h[p]? = some (i, a)) :
    (logOf h i)[rank h i p]? = some a := by
  rw [logOf_cut hp]
  unfold rank
  rw [List.getElem?_append_right (Nat.le_refl _), Nat.sub_self]
  rfl

theorem exists_rank {b : Nat} (hb : (logOf h i)[b]? = some a) :
    ∃ p, h[p]? = some (i, a) ∧ rank h i p = b := by
  induction h generalizing b with
  | nil => cases hb
  | cons e h ih =>
    obtain ⟨j, a'⟩ := e
    by_cases hji : j = i
    · subst hji
      rw [logOf_cons_self] at hb
      cases b with
      | zero =>
        cases hb
        exact ⟨0, rfl, rfl⟩
      | succ b =>
        obtain ⟨p, hp, hrank⟩ := ih hb
        refine ⟨p + 1, hp, ?_⟩
        unfold rank at hrank ⊢
        rw [List.take_succ_cons, logOf_cons_self, List.length_cons, hrank]
    · rw [logOf_cons_of_ne hji] at hb
      obtain ⟨p, hp, hrank⟩ := ih hb
      refine ⟨p + 1, hp, ?_⟩
      unfold rank at hrank ⊢
      rw [List.take_succ_cons, logOf_cons_of_ne hji, hrank]

theorem rank_lt {q : Nat} (hp : h[p]? = some (i, a)) (hpq : p < q) : rank h i p < rank h i q := by
  have hp' : (h.take q)[p]? = some (i, a) := by
    rw [List.getElem?_take_of_lt hpq]
    exact hp
  have htake : (h.take q).take p = h.take p := by
    rw [List.take_take, Nat.min_eq_left (Nat.le_of_lt hpq)]
  unfold rank
  rw [logOf_cut hp', htake, List.length_append, List.length_cons]
  omega

theorem rank_inj {b : α} {q : Nat} (hp : h[p]? = some (i, a)) (hq : h[q]? = some (i, b))
    (hrank : rank h i p = rank h i q) : p = q := by
  rcases Nat.lt_trichotomy p q with hlt | heq | hlt
  · have := rank_lt hp hlt
    omega
  · exact heq
  · have := rank_lt hq hlt
    omega

theorem rank_append (hp : p ≤ h.length) (h' : List (ι × α)) (i : ι) :
    rank (h ++ h') i p = rank h i p := by
  unfold rank
  rw [List.take_append_of_le_length hp]

theorem rank_length (h : List (ι × α)) (i : ι) : rank h i h.length = (logOf h i).length := by
  unfold rank
  rw [List.take_length]

end Flotilla.Interleaving
