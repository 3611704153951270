/-
  Lib.Schedules — putting timed operations into an order.

  An operation has a window of time and acts on a state, or cannot act in it.
  Some operations are optional: they may be left out.  A set of operations has an
  order if the mandatory ones and some of the optional ones can act one after the
  other, and none comes before one that had ended when it began.

  A search finds such an order from the front: it takes an operation that began
  before any other that is left has ended, and lets it act or drops it
  (`Completes`).  It may drop an operation that never changes the state at any time,
  and take either of two optional operations without an end that act alike.
-/
import Mathlib

namespace Flotilla.Schedules

/-- Operations `ι` with their windows, and what they do to a state. -/
structure Timed (ι S T : Type) where
  inv : ι → T
  ret : ι → T
  act : ι → S → Option S
  optional : ι → Prop

namespace Timed

variable {ι S T : Type}

/-- The operations can act in this order. -/
def Legal (H : Timed ι S T) : S → List ι → Prop
  | _, [] => True
  | s, i :: is => ∃ s', H.act i s = some s' ∧ Legal H s' is

def comap {κ : Type} (H : Timed ι S T) (f : κ → ι) : Timed κ S T where
  inv k := H.inv (f k)
  ret k := H.ret (f k)
  act k := H.act (f k)
  optional k := H.optional (f k)

theorem legal_map {κ : Type} {H : Timed ι S T} {f : κ → ι} {s : S} {order : List κ} :
    H.Legal s (order.map f) ↔ (H.comap f).Legal s order := by
  induction order generalizing s with
  | nil => exact Iff.rfl
  | cons k order ih => exact exists_congr fun s' => and_congr_right fun _ => ih

theorem exists_names {κ : Type} [DecidableEq ι] {f : κ → ι} {P : Finset κ} {order : List ι}
    (h : ∀ i ∈ order, i ∈ P.image f) : ∃ names : List κ, names.map f = order ∧ ∀ k ∈ names, k ∈ P := by
  induction order with
  | nil => exact ⟨[], rfl, List.forall_mem_nil _⟩
  | cons i order ih =>
    obtain ⟨names, hnames, hP⟩ := ih fun j hj => h j (List.mem_cons_of_mem i hj)
    obtain ⟨k, hk, rfl⟩ := Finset.mem_image.mp (h i List.mem_cons_self)
    refine ⟨k :: names, by rw [List.map_cons, hnames], fun l hl => ?_⟩
    rcases List.mem_cons.mp hl with rfl | hl
    · exact hk
    · exact hP l hl

section

variable [LinearOrder T] (H : Timed ι S T)

/-- `order` is an order of the operations of `P`, of which optional ones may be missing. -/
structure Orders (P : Finset ι) (s : S) (order : List ι) : Prop where
  nodup : order.Nodup
  subset : ∀ i ∈ order, i ∈ P
  mandatory : ∀ i ∈ P, ¬ H.optional i → i ∈ order
  realTime : order.Pairwise fun a b => ¬ H.ret b < H.inv a
  legal : H.Legal s order

/-- No operation of `P` had ended when `i` began. -/
def Enabled (P : Finset ι) (i : ι) : Prop := ∀ j ∈ P, H.inv i ≤ H.ret j

/-- The operations of `P` can be used up, each time one that is enabled. -/
inductive Completes [DecidableEq ι] : Finset ι → S → Prop
  | done (s : S) : Completes ∅ s
  | act {P : Finset ι} {s s' : S} (i : ι) (hi : i ∈ P) (henabled : H.Enabled P i)
      (hact : H.act i s = some s') (hrest : Completes (P.erase i) s') : Completes P s
  | drop {P : Finset ι} {s : S} (i : ι) (hi : i ∈ P) (henabled : H.Enabled P i)
      (hoptional : H.optional i) (hrest : Completes (P.erase i) s) : Completes P s

/-- Windows do not end before they begin, and optional operations never end. -/
structure WellTimed [OrderTop T] : Prop where
  inv_le_ret : ∀ i, H.inv i ≤ H.ret i
  optional_ret : ∀ i, H.optional i → H.ret i = ⊤

variable {H}

theorem Enabled.mono {P Q : Finset ι} {i : ι} (h : H.Enabled P i) (hQ : Q ⊆ P) : H.Enabled Q i :=
  fun j hj => h j (hQ hj)

variable [DecidableEq ι] {P : Finset ι} {s : S}

/-! ## Orders and searches. -/

theorem Completes.exists_order (h : H.Completes P s) : ∃ order, H.Orders P s order := by
  induction h with
  | done s =>
    exact ⟨[], List.nodup_nil, List.forall_mem_nil _,
      fun _ hi => absurd hi (Finset.notMem_empty _), .nil, trivial⟩
  | @act P s s' i hi henabled hact hrest ih =>
    obtain ⟨order, ho⟩ := ih
    refine ⟨i :: order, ?_, ?_, ?_, ?_, ⟨s', hact, ho.legal⟩⟩
    · exact List.nodup_cons.mpr ⟨fun hmem => Finset.notMem_erase i P (ho.subset i hmem), ho.nodup⟩
    · intro j hj
      rcases List.mem_cons.mp hj with rfl | hj
      · exact hi
      · exact Finset.mem_of_mem_erase (ho.subset j hj)
    · intro j hj hneeded
      by_cases heq : j = i
      · subst heq
        exact List.mem_cons_self
      · exact List.mem_cons_of_mem i (ho.mandatory j (Finset.mem_erase.mpr ⟨heq, hj⟩) hneeded)
    · refine List.pairwise_cons.mpr ⟨fun j hj => ?_, ho.realTime⟩
      exact not_lt.mpr (henabled j (Finset.mem_of_mem_erase (ho.subset j hj)))
  | @drop P s i hi henabled hoptional hrest ih =>
    obtain ⟨order, ho⟩ := ih
    refine ⟨order, ho.nodup, fun j hj => Finset.mem_of_mem_erase (ho.subset j hj), ?_,
      ho.realTime, ho.legal⟩
    intro j hj hneeded
    have hne : j ≠ i := fun heq => hneeded (heq ▸ hoptional)
    exact ho.mandatory j (Finset.mem_erase.mpr ⟨hne, hj⟩) hneeded

variable [OrderTop T]

theorem WellTimed.completes_optional (hH : H.WellTimed) (hP : ∀ i ∈ P, H.optional i) :
    H.Completes P s := by
  induction P using Finset.induction_on with
  | empty => exact .done s
  | insert i P hi ih =>
    refine .drop i (Finset.mem_insert_self i P) (fun j hj => ?_) (hP i (Finset.mem_insert_self i P)) ?_
    · rw [hH.optional_ret j (hP j hj)]
      exact le_top
    · rw [Finset.erase_insert hi]
      exact ih fun j hj => hP j (Finset.mem_insert_of_mem hj)

theorem Orders.completes (hH : H.WellTimed) {order : List ι} (h : H.Orders P s order) :
    H.Completes P s := by
  induction order generalizing P s with
  | nil =>
    refine hH.completes_optional fun i hi => ?_
    by_contra hneeded
    exact absurd (h.mandatory i hi hneeded) List.not_mem_nil
  | cons i order ih =>
    obtain ⟨s', hact, hlegal⟩ := h.legal
    have hnodup := List.nodup_cons.mp h.nodup
    have htime := List.pairwise_cons.mp h.realTime
    have hrest : H.Orders (P.erase i) s' order :=
      { nodup := hnodup.2
        subset := fun j hj => Finset.mem_erase.mpr
          ⟨fun heq => hnodup.1 (heq ▸ hj), h.subset j (List.mem_cons_of_mem i hj)⟩
        mandatory := fun j hj hneeded =>
          (List.mem_cons.mp (h.mandatory j (Finset.mem_of_mem_erase hj) hneeded)).resolve_left
            (Finset.ne_of_mem_erase hj)
        realTime := htime.2
        legal := hlegal }
    refine .act i (h.subset i List.mem_cons_self) (fun j hj => ?_) hact (ih hrest)
    -- `j` is `i` itself, comes later in the order, or is left out
    by_cases hmem : j ∈ i :: order
    · rcases List.mem_cons.mp hmem with rfl | hlater
      · exact hH.inv_le_ret j
      · exact not_lt.mp (htime.1 j hlater)
    · have hoptional : H.optional j := by
        by_contra hneeded
        exact hmem (h.mandatory j hj hneeded)
      rw [hH.optional_ret j hoptional]
      exact le_top

theorem completes_iff (hH : H.WellTimed) : H.Completes P s ↔ ∃ order, H.Orders P s order :=
  ⟨Completes.exists_order, fun h => h.elim fun _ ho => ho.completes hH⟩

/-! ## Prunings. -/

omit [OrderTop T] in
theorem Completes.erase_silent (h : H.Completes P s) {i : ι}
    (hsilent : ∀ t t', H.act i t = some t' → t' = t) : H.Completes (P.erase i) s := by
  induction h with
  | done s => exact .done s
  | @act P s s' j hj henabled hact hrest ih =>
    by_cases heq : j = i
    · subst heq
      rw [← hsilent s s' hact]
      exact hrest
    · rw [Finset.erase_right_comm] at ih
      exact .act j (Finset.mem_erase.mpr ⟨heq, hj⟩) (henabled.mono (Finset.erase_subset i P)) hact ih
  | @drop P s j hj henabled hoptional hrest ih =>
    by_cases heq : j = i
    · subst heq
      exact hrest
    · rw [Finset.erase_right_comm] at ih
      exact .drop j (Finset.mem_erase.mpr ⟨heq, hj⟩) (henabled.mono (Finset.erase_subset i P))
        hoptional ih

theorem Completes.exchange {i j : ι} (halike : H.act i = H.act j) (hi : H.optional i)
    (hret : H.ret i = ⊤) {Q : Finset ι} (h : H.Completes Q s) (hjQ : j ∈ Q) (hiQ : i ∉ Q)
    (henabled : H.Enabled Q i) : H.Completes (insert i (Q.erase j)) s := by
  have hback : ∀ {Q : Finset ι}, i ∉ Q → (insert i (Q.erase j)).erase i = Q.erase j := by
    intro Q hiQ
    exact Finset.erase_insert fun hmem => hiQ (Finset.mem_of_mem_erase hmem)
  -- acting on another operation `k` commutes with the exchange
  have hother : ∀ {Q : Finset ι} {k : ι}, k ≠ i → k ≠ j → (insert i (Q.erase j)).erase k =
      insert i ((Q.erase k).erase j) := by
    intro Q k hki hkj
    rw [Finset.erase_insert_of_ne hki.symm, Finset.erase_right_comm]
  have hkeeps : ∀ {Q : Finset ι} {k : ι}, H.Enabled Q k → H.Enabled (insert i (Q.erase j)) k := by
    intro Q k hen l hl
    rcases Finset.mem_insert.mp hl with rfl | hl
    · rw [hret]
      exact le_top
    · exact hen l (Finset.mem_of_mem_erase hl)
  induction h with
  | done s => exact absurd hjQ (Finset.notMem_empty _)
  | @act Q s s' k hk hen hact hrest ih =>
    by_cases hkj : k = j
    · subst hkj
      refine .act i (Finset.mem_insert_self i _) (hkeeps henabled) (halike ▸ hact) ?_
      rw [hback hiQ]
      exact hrest
    · have hki : k ≠ i := fun heq => hiQ (heq ▸ hk)
      refine .act k (Finset.mem_insert_of_mem (Finset.mem_erase.mpr ⟨hkj, hk⟩)) (hkeeps hen) hact ?_
      rw [hother hki hkj]
      exact ih (Finset.mem_erase.mpr ⟨Ne.symm hkj, hjQ⟩)
        (fun hmem => hiQ (Finset.mem_of_mem_erase hmem)) (henabled.mono (Finset.erase_subset k Q))
  | @drop Q s k hk hen hoptional hrest ih =>
    by_cases hkj : k = j
    · subst hkj
      refine .drop i (Finset.mem_insert_self i _) (hkeeps henabled) hi ?_
      rw [hback hiQ]
      exact hrest
    · have hki : k ≠ i := fun heq => hiQ (heq ▸ hk)
      refine .drop k (Finset.mem_insert_of_mem (Finset.mem_erase.mpr ⟨hkj, hk⟩)) (hkeeps hen)
        hoptional ?_
      rw [hother hki hkj]
      exact ih (Finset.mem_erase.mpr ⟨Ne.symm hkj, hjQ⟩)
        (fun hmem => hiQ (Finset.mem_of_mem_erase hmem)) (henabled.mono (Finset.erase_subset k Q))

omit [OrderTop T] in
theorem orders_comap {κ : Type} [DecidableEq κ] {f : κ → ι} {P : Finset κ}
    (hf : Set.InjOn f P) :
    (∃ order, (H.comap f).Orders P s order) ↔ ∃ order, H.Orders (P.image f) s order := by
  constructor
  · intro h
    obtain ⟨order, ho⟩ := h
    refine ⟨order.map f, ?_, ?_, ?_, List.pairwise_map.mpr ho.realTime, legal_map.mpr ho.legal⟩
    · exact ho.nodup.map_on fun x hx y hy => hf (ho.subset x hx) (ho.subset y hy)
    · intro i hi
      obtain ⟨k, hk, rfl⟩ := List.mem_map.mp hi
      exact Finset.mem_image_of_mem f (ho.subset k hk)
    · intro i hi hneeded
      obtain ⟨k, hk, rfl⟩ := Finset.mem_image.mp hi
      exact List.mem_map_of_mem (ho.mandatory k hk hneeded)
  · intro h
    obtain ⟨order, ho⟩ := h
    obtain ⟨names, rfl, hnames⟩ := exists_names ho.subset
    refine ⟨names, ho.nodup.of_map f, hnames, ?_, List.pairwise_map.mp ho.realTime,
      legal_map.mp ho.legal⟩
    intro k hk hneeded
    obtain ⟨l, hl, heq⟩ := List.mem_map.mp (ho.mandatory (f k) (Finset.mem_image_of_mem f hk) hneeded)
    rw [← hf (hnames l hl) hk heq]
    exact hl

end

end Timed

end Flotilla.Schedules
