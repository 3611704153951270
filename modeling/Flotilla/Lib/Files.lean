/-
  Lib.Files — numbered files.

  A directory lists numbers with contents, in the order in which the files were
  made.  A file that exists is written in its place.
-/
import Mathlib

namespace Flotilla

abbrev Files (C : Type*) := List (ℕ × C)

namespace Files

variable {C : Type*}

def numbers (d : Files C) : List ℕ := d.map Prod.fst

def read (d : Files C) (n : ℕ) : Option C := (d.find? fun f => f.1 = n).map Prod.snd

def write (d : Files C) (n : ℕ) (c : C) : Files C :=
  if n ∈ numbers d then d.map fun f => if f.1 = n then (n, c) else f else d ++ [(n, c)]

def remove (d : Files C) (n : ℕ) : Files C := d.filter fun f => f.1 ≠ n

theorem read_cons (f : ℕ × C) (d : Files C) (n : ℕ) :
    read (f :: d) n = if f.1 = n then some f.2 else read d n := by
  unfold read
  rw [List.find?_cons]
  by_cases hf : f.1 = n <;> simp [hf]

theorem read_append (d d' : Files C) (n : ℕ) : read (d ++ d') n = (read d n).or (read d' n) := by
  induction d with
  | nil => rfl
  | cons f d ih =>
    rw [List.cons_append, read_cons, read_cons, ih]
    split <;> rfl

theorem read_eq_none {d : Files C} {n : ℕ} : read d n = none ↔ n ∉ numbers d := by
  induction d with
  | nil => simp [read, numbers]
  | cons f d ih =>
    rw [read_cons]
    by_cases hf : f.1 = n
    · simp [hf, numbers]
    · rw [if_neg hf, ih]
      simp [numbers, Ne.symm hf]

theorem read_map (d : Files C) {n m : ℕ} (c : C) :
    read (d.map fun f => if f.1 = n then (n, c) else f) m =
      if m = n then (read d m).map fun _ => c else read d m := by
  induction d with
  | nil => simp [read]
  | cons f d ih =>
    rw [List.map_cons, read_cons, read_cons, ih]
    by_cases hf : f.1 = n
    · by_cases hm : m = n
      · simp [hf, hm]
      · simp [hf, hm, Ne.symm hm]
    · by_cases hm : m = n
      · simp [hf, hm]
      · simp [hf, hm]

theorem read_write (d : Files C) (n m : ℕ) (c : C) :
    read (write d n c) m = if m = n then some c else read d m := by
  unfold write
  by_cases hn : n ∈ numbers d
  · rw [if_pos hn, read_map]
    by_cases hm : m = n
    · cases hread : read d m with
      | none => exact absurd (hm ▸ hn) (read_eq_none.mp hread)
      | some c' => simp [hm]
    · simp [hm]
  · rw [if_neg hn, read_append, read_cons]
    by_cases hm : m = n
    · rw [hm, read_eq_none.mpr hn, if_pos rfl, if_pos rfl]
      rfl
    · rw [if_neg hm, if_neg (Ne.symm hm)]
      show (read d m).or none = _
      exact Option.or_none

theorem read_remove_of_ne (d : Files C) {n m : ℕ} (h : m ≠ n) : read (remove d n) m = read d m := by
  unfold remove
  induction d with
  | nil => rfl
  | cons f d ih =>
    rw [read_cons]
    by_cases hf : f.1 = n
    · rw [List.filter_cons_of_neg (by simpa using hf), ih, if_neg (fun hm => h (hm.symm.trans hf))]
    · rw [List.filter_cons_of_pos (by simpa using hf), read_cons, ih]

end Files

end Flotilla
