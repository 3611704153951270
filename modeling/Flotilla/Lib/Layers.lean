/-
  Lib.Layers — versions of keys, kept in layers of runs.

  What counts of a key is its newest entry.  Layers hold newer entries on top: a
  layer that knows a key knows it at least as well as every layer below.
-/
import Flotilla.Lib.SortedRuns

namespace Flotilla.SortedRuns

variable {E K : Type*} [Versioned E K]

/-! ## Newer versions. -/

/-- If `upper` knows a key, then in a version as new as any of `lower`. -/
def Shadows (upper lower : List E) : Prop :=
  ∀ e' ∈ lower, (∃ e ∈ upper, key e = key e') → ∃ e ∈ upper, key e = key e' ∧ seq e' ≤ seq e

/-- Whatever `upper` knows of a key is newer than what `lower` knows of it. -/
def Newer (upper lower : List E) : Prop :=
  ∀ a ∈ upper, ∀ b ∈ lower, key a = key b → seq b < seq a

theorem Newer.shadows {upper lower : List E} (h : Newer upper lower) : Shadows upper lower := by
  rintro b hb ⟨a, ha, hk⟩
  exact ⟨a, ha, hk, Nat.le_of_lt (h a ha b hb hk)⟩

variable [LinearOrder K]

/-! ## Layers. -/

/-- The first layer that knows the key. -/
def lookup (layers : List (List E)) (k : K) : Option E :=
  layers.findSome? (fun es => es.find? (fun e => key e = k))

theorem lookup_newest {layers : List (List E)} (hrun : ∀ es ∈ layers, Run es)
    (hshadow : layers.Pairwise Shadows) {k : K} {e : E} (h : lookup layers k = some e) :
    Newest layers.flatten e ∧ key e = k := by
  induction layers with
  | nil => cases h
  | cons es layers ih =>
    obtain ⟨htop, hrest⟩ := List.pairwise_cons.mp hshadow
    unfold lookup at h
    rw [List.findSome?_cons] at h
    cases hfind : es.find? (fun e => key e = k) with
    | some e' =>
      rw [hfind] at h
      obtain rfl := Option.some.inj h
      obtain ⟨⟨hmem, hnew⟩, hk⟩ := (hrun es List.mem_cons_self).find?_newest hfind
      refine ⟨⟨List.mem_flatten.mpr ⟨es, List.mem_cons_self, hmem⟩, ?_⟩, hk⟩
      intro x hx hkx
      obtain ⟨fs, hfs, hxf⟩ := List.mem_flatten.mp hx
      rcases List.mem_cons.mp hfs with rfl | hfs
      · exact hnew x hxf hkx
      · obtain ⟨y, hy, hky, hle⟩ := htop fs hfs x hxf ⟨e', hmem, hkx.symm⟩
        exact Nat.le_trans hle (hnew y hy (hky.trans hkx))
    | none =>
      rw [hfind] at h
      obtain ⟨⟨hmem, hnew⟩, hk⟩ := ih (fun fs hfs => hrun fs (List.mem_cons_of_mem es hfs)) hrest h
      refine ⟨⟨List.mem_append_right _ hmem, ?_⟩, hk⟩
      intro x hx hkx
      rcases List.mem_append.mp hx with hx | hx
      · have hnot := List.find?_eq_none.mp hfind x hx
        simp only [decide_eq_true_eq] at hnot
        exact absurd (hkx.trans hk) hnot
      · exact hnew x hx hkx

theorem lookup_eq_none {layers : List (List E)} {k : K} (h : lookup layers k = none) :
    ∀ e ∈ layers.flatten, key e ≠ k := by
  intro e he hk
  obtain ⟨es, hes, he⟩ := List.mem_flatten.mp he
  have hnone := List.findSome?_eq_none_iff.mp h es hes
  have := List.find?_eq_none.mp hnone e he
  simp [hk] at this

end Flotilla.SortedRuns
