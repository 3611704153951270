/-
  Lib.SortedMap — finite maps, kept as lists in key order.

  The entries of a map are sorted strictly by key, so a map has one list of
  entries only: two maps that answer every lookup alike are equal.
-/
import Mathlib

namespace Flotilla

structure SortedMap (K V : Type) [LinearOrder K] where
  entries : List (K × V)
  sorted : entries.Pairwise (fun a b => a.1 < b.1)

namespace SortedMap

variable {K V W : Type} [LinearOrder K]

/-! ## Lists in key order. -/

instance : Std.Antisymm (fun a b : K × V => a.1 < b.1) where
  antisymm _ _ hab hba := absurd hba (lt_asymm hab)

instance : Std.Irrefl (fun a b : K × V => a.1 < b.1) where
  irrefl a := lt_irrefl a.1

theorem eq_of_mem_iff {xs ys : List (K × V)} (hxs : xs.Pairwise (fun a b => a.1 < b.1))
    (hys : ys.Pairwise (fun a b => a.1 < b.1)) (h : ∀ e, e ∈ xs ↔ e ∈ ys) : xs = ys :=
  hxs.eq_of_mem_iff hys h

variable {es : List (K × V)} {k : K} {v : V} {m : SortedMap K V}

theorem eq_of_key (hsorted : es.Pairwise (fun a b => a.1 < b.1)) {a b : K × V} (ha : a ∈ es)
    (hb : b ∈ es) (hkey : a.1 = b.1) : a = b := by
  induction es with
  | nil => cases ha
  | cons e es ih =>
    have hhead : ∀ x ∈ es, e.1 < x.1 := fun x hx => List.rel_of_pairwise_cons hsorted hx
    cases ha with
    | head =>
      cases hb with
      | head => rfl
      | tail _ hb => exact absurd hkey (ne_of_lt (hhead b hb))
    | tail _ ha =>
      cases hb with
      | head => exact absurd hkey.symm (ne_of_lt (hhead a ha))
      | tail _ hb => exact ih hsorted.tail ha hb

/-- The place of a new entry, which replaces the old one of its key. -/
def insertEntry (k : K) (v : V) : List (K × V) → List (K × V)
  | [] => [(k, v)]
  | e :: es =>
      if k < e.1 then (k, v) :: e :: es
      else if k = e.1 then (k, v) :: es
      else e :: insertEntry k v es

theorem mem_insertEntry (hsorted : es.Pairwise (fun a b => a.1 < b.1)) (e : K × V) :
    e ∈ insertEntry k v es ↔ e = (k, v) ∨ (e ∈ es ∧ e.1 ≠ k) := by
  induction es with
  | nil => simp [insertEntry]
  | cons a es ih =>
    have hhead : ∀ b ∈ es, a.1 < b.1 := fun b hb => List.rel_of_pairwise_cons hsorted hb
    unfold insertEntry
    by_cases hlt : k < a.1
    · rw [if_pos hlt, List.mem_cons]
      -- every key of the list is beyond the new one
      have hbeyond : e ∈ a :: es → e.1 ≠ k := by
        intro he
        cases he with
        | head => exact ne_of_gt hlt
        | tail _ he => exact ne_of_gt (lt_trans hlt (hhead e he))
      exact or_congr_right ⟨fun he => ⟨he, hbeyond he⟩, fun he => he.1⟩
    · rw [if_neg hlt]
      by_cases heq : k = a.1
      · rw [if_pos heq, List.mem_cons, List.mem_cons]
        refine or_congr_right ⟨fun he => ⟨.inr he, ?_⟩, ?_⟩
        · rw [heq]
          exact ne_of_gt (hhead e he)
        · intro he
          cases he.1 with
          | inl hea => exact absurd (hea ▸ heq.symm) he.2
          | inr hmem => exact hmem
      · rw [if_neg heq, List.mem_cons, ih hsorted.tail, List.mem_cons]
        constructor
        · intro he
          cases he with
          | inl hea => exact .inr ⟨.inl hea, hea ▸ fun h => heq h.symm⟩
          | inr he => exact he.imp_right fun h => ⟨.inr h.1, h.2⟩
        · intro he
          cases he with
          | inl hnew => exact .inr (.inl hnew)
          | inr he => exact he.1.imp_right fun hmem => .inr ⟨hmem, he.2⟩

theorem sorted_insertEntry (k : K) (v : V) (hsorted : es.Pairwise (fun a b => a.1 < b.1)) :
    (insertEntry k v es).Pairwise (fun a b => a.1 < b.1) := by
  induction es with
  | nil => exact List.pairwise_singleton _ _
  | cons a es ih =>
    have hhead : ∀ b ∈ es, a.1 < b.1 := fun b hb => List.rel_of_pairwise_cons hsorted hb
    unfold insertEntry
    by_cases hlt : k < a.1
    · rw [if_pos hlt]
      refine List.pairwise_cons.mpr ⟨fun b hb => ?_, hsorted⟩
      cases hb with
      | head => exact hlt
      | tail _ hb => exact lt_trans hlt (hhead b hb)
    · rw [if_neg hlt]
      by_cases heq : k = a.1
      · rw [if_pos heq]
        exact List.pairwise_cons.mpr ⟨fun b hb => heq ▸ hhead b hb, hsorted.tail⟩
      · rw [if_neg heq]
        refine List.pairwise_cons.mpr ⟨fun b hb => ?_, ih hsorted.tail⟩
        cases (mem_insertEntry hsorted.tail b).mp hb with
        | inl hnew =>
          rw [hnew]
          exact lt_of_le_of_ne (not_lt.mp hlt) (Ne.symm heq)
        | inr hb => exact hhead b hb.1

/-! ## Operations. -/

def empty : SortedMap K V := ⟨[], List.Pairwise.nil⟩

def get? (m : SortedMap K V) (k : K) : Option V :=
  (m.entries.find? (fun e => e.1 = k)).map Prod.snd

def insert (m : SortedMap K V) (k : K) (v : V) : SortedMap K V :=
  ⟨insertEntry k v m.entries, sorted_insertEntry k v m.sorted⟩

def filter (m : SortedMap K V) (p : K × V → Bool) : SortedMap K V :=
  ⟨m.entries.filter p, m.sorted.filter p⟩

def erase (m : SortedMap K V) (k : K) : SortedMap K V := m.filter (fun e => e.1 ≠ k)

/-! ## Lookups. -/

theorem mem_entries :
    (k, v) ∈ m.entries ↔ m.get? k = some v := by
  unfold get?
  constructor
  · intro hmem
    cases hfind : m.entries.find? (fun e => e.1 = k) with
    | none =>
      have hne := List.find?_eq_none.mp hfind (k, v) hmem
      exact absurd (decide_eq_true rfl) hne
    | some e =>
      have hkey : e.1 = k := by simpa using List.find?_some hfind
      have he : e = (k, v) := eq_of_key m.sorted (List.mem_of_find?_eq_some hfind) hmem hkey
      rw [he]
      rfl
  · intro hget
    obtain ⟨e, hfind, hv⟩ := Option.map_eq_some_iff.mp hget
    have hkey : e.1 = k := by simpa using List.find?_some hfind
    have hmem := List.mem_of_find?_eq_some hfind
    rw [← hkey, ← hv]
    exact hmem

theorem get?_eq_of_iff {o : Option V} (h : ∀ v, (k, v) ∈ m.entries ↔ o = some v) :
    m.get? k = o := by
  apply Option.ext
  intro v
  exact mem_entries.symm.trans (h v)

@[simp] theorem get?_empty (k : K) : (empty : SortedMap K V).get? k = none := rfl

theorem get?_insert (m : SortedMap K V) (k : K) (v : V) (k' : K) :
    (m.insert k v).get? k' = if k' = k then some v else m.get? k' := by
  apply get?_eq_of_iff
  intro w
  show (k', w) ∈ insertEntry k v m.entries ↔ _
  rw [mem_insertEntry m.sorted, Prod.mk.injEq, mem_entries]
  by_cases hk : k' = k
  · rw [if_pos hk]
    simp [hk, eq_comm]
  · rw [if_neg hk]
    simp [hk]

theorem get?_filter (m : SortedMap K V) (p : K × V → Bool) (k : K) :
    (m.filter p).get? k = (m.get? k).filter (fun v => p (k, v)) := by
  apply get?_eq_of_iff
  intro v
  show (k, v) ∈ m.entries.filter p ↔ _
  rw [List.mem_filter, mem_entries, Option.filter_eq_some_iff]

theorem get?_erase (m : SortedMap K V) (k k' : K) :
    (m.erase k).get? k' = if k' = k then none else m.get? k' := by
  unfold erase
  rw [get?_filter]
  by_cases hk : k' = k
  · rw [if_pos hk]
    cases m.get? k' <;> simp [Option.filter, hk]
  · rw [if_neg hk]
    cases m.get? k' <;> simp [Option.filter, hk]

/-! ## Runs of updates. -/

theorem get?_foldl_insert_cases (h : (es.foldl (fun m e => m.insert e.1 e.2) m).get? k = some v) :
    (k, v) ∈ es ∨ m.get? k = some v := by
  induction es generalizing m with
  | nil => exact .inr h
  | cons e es ih =>
    cases ih h with
    | inl hmem => exact .inl (List.mem_cons_of_mem e hmem)
    | inr hget =>
      rw [get?_insert] at hget
      by_cases hk : k = e.1
      · rw [if_pos hk] at hget
        refine .inl ?_
        rw [hk, ← Option.some.inj hget]
        exact List.mem_cons_self
      · rw [if_neg hk] at hget
        exact .inr hget

theorem get?_foldl_insert_of_not_mem (m : SortedMap K V) (h : ∀ e ∈ es, e.1 ≠ k) :
    (es.foldl (fun m e => m.insert e.1 e.2) m).get? k = m.get? k := by
  induction es generalizing m with
  | nil => rfl
  | cons e es ih =>
    rw [List.foldl_cons, ih _ fun a ha => h a (List.mem_cons_of_mem e ha), get?_insert,
      if_neg (Ne.symm (h e List.mem_cons_self))]

theorem get?_foldl_insert_of_mem (m : SortedMap K V) (hkeys : es.Pairwise (fun a b => a.1 ≠ b.1))
    (h : (k, v) ∈ es) :
    (es.foldl (fun m e => m.insert e.1 e.2) m).get? k = some v := by
  induction es generalizing m with
  | nil => cases h
  | cons e es ih =>
    cases h with
    | head =>
      rw [List.foldl_cons, get?_foldl_insert_of_not_mem, get?_insert, if_pos rfl]
      exact fun a ha => Ne.symm (List.rel_of_pairwise_cons hkeys ha)
    | tail _ h => exact ih _ hkeys.tail h

theorem get?_foldl_erase (ks : List K) (m : SortedMap K V) (k : K) :
    (ks.foldl erase m).get? k = if k ∈ ks then none else m.get? k := by
  induction ks generalizing m with
  | nil => rfl
  | cons a ks ih =>
    rw [List.foldl_cons, ih, get?_erase]
    by_cases hmem : k ∈ ks
    · rw [if_pos hmem, if_pos (List.mem_cons_of_mem a hmem)]
    · rw [if_neg hmem]
      by_cases hk : k = a
      · rw [if_pos hk, if_pos (hk ▸ List.mem_cons_self)]
      · rw [if_neg hk, if_neg (by simp [hk, hmem])]

/-! ## Iterators. -/

/-- The entries that an iterator visits after `Seek(k)`. -/
def seek (m : SortedMap K V) (k : K) : List (K × V) := m.entries.dropWhile (fun e => e.1 < k)

theorem dropWhile_eq_filter (hsorted : es.Pairwise (fun a b => a.1 < b.1)) (k : K) :
    es.dropWhile (fun e => e.1 < k) = es.filter (fun e => k ≤ e.1) := by
  induction es with
  | nil => rfl
  | cons e es ih =>
    by_cases hlt : e.1 < k
    · rw [List.dropWhile_cons_of_pos (by simpa using hlt), ih hsorted.tail,
        List.filter_cons_of_neg (by simpa using hlt)]
    · have hle : k ≤ e.1 := not_lt.mp hlt
      -- all later keys are beyond the first one
      have hall : ∀ a ∈ e :: es, decide (k ≤ a.1) = true := by
        intro a ha
        cases ha with
        | head => exact decide_eq_true hle
        | tail _ ha =>
          exact decide_eq_true (hle.trans (le_of_lt (List.rel_of_pairwise_cons hsorted ha)))
      rw [List.dropWhile_cons_of_neg (by simpa using hle), List.filter_eq_self.mpr hall]

theorem seek_eq_filter (m : SortedMap K V) (k : K) :
    m.seek k = m.entries.filter (fun e => k ≤ e.1) := dropWhile_eq_filter m.sorted k

theorem sorted_seek (m : SortedMap K V) (k : K) :
    (m.seek k).Pairwise (fun a b => a.1 < b.1) := by
  rw [seek_eq_filter]
  exact m.sorted.filter _

theorem takeWhile_eq_filter (hsorted : es.Pairwise (fun a b => a.1 < b.1)) {p : K × V → Bool}
    (hdown : ∀ a ∈ es, ∀ b ∈ es, a.1 < b.1 → p b = true → p a = true) :
    es.takeWhile p = es.filter p := by
  induction es with
  | nil => rfl
  | cons e es ih =>
    have hrest := ih hsorted.tail fun a ha b hb =>
      hdown a (List.mem_cons_of_mem e ha) b (List.mem_cons_of_mem e hb)
    by_cases hp : p e = true
    · rw [List.takeWhile_cons_of_pos hp, List.filter_cons_of_pos hp, hrest]
    · rw [List.takeWhile_cons_of_neg hp, List.filter_cons_of_neg hp]
      refine (List.filter_eq_nil_iff.mpr fun b hb hpb => hp ?_).symm
      exact hdown e List.mem_cons_self b (List.mem_cons_of_mem e hb)
        (List.rel_of_pairwise_cons hsorted hb) hpb

end SortedMap

end Flotilla
