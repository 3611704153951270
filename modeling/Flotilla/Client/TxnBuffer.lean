/-
  Client.TxnBuffer — the write buffer of a client transaction,
  `mutations_` of `client/txn_client.cc`.

  Writes stay with the client until the commit.  A scan asks the server for the
  rows of the snapshot and then lays the buffered writes over them, one after the
  other, each at its `lower_bound`.
-/
import Flotilla.Txn.Ops

namespace Flotilla.Client

open Flotilla.Txn.Codec (InRange beyond)

/-! ## Buffered writes. -/

inductive Mutation where
  | put (value : Bytes)
  | delete
  deriving DecidableEq

/-- What the key has after the write. -/
def Mutation.value? : Mutation → Option Bytes
  | .put value => some value
  | .delete => none

abbrev Buffer := SortedMap Bytes Mutation

def Buffer.put (buffer : Buffer) (key value : Bytes) : Buffer := buffer.insert key (.put value)

def Buffer.delete (buffer : Buffer) (key : Bytes) : Buffer := buffer.insert key .delete

/-! ## The overlay. -/

/-- One round of the loop: `back` begins at `lower_bound`. -/
def overlayOne (start endKey : Bytes) (rows : List (Bytes × Bytes)) (m : Bytes × Mutation) :
    List (Bytes × Bytes) :=
  if m.1 < start ∨ beyond endKey m.1 = true then rows
  else
    let front := rows.takeWhile (fun row => row.1 < m.1)
    let back := rows.dropWhile (fun row => row.1 < m.1)
    if back.head?.any (fun row => row.1 = m.1) then
      match m.2 with
      | .delete => front ++ back.tail
      | .put value => front ++ (m.1, value) :: back.tail
    else
      match m.2 with
      | .put value => front ++ (m.1, value) :: back
      | .delete => rows

def overlay (start endKey : Bytes) (rows : List (Bytes × Bytes)) (buffer : Buffer) :
    List (Bytes × Bytes) :=
  buffer.entries.foldl (overlayOne start endKey) rows

section Overlay

variable {start endKey : Bytes} {rows : List (Bytes × Bytes)}

theorem overlayOne_outside {m : Bytes × Mutation} (h : ¬ InRange start endKey m.1) :
    overlayOne start endKey rows m = rows := by
  apply if_pos
  by_contra hno
  push Not at hno
  refine h ⟨hno.1, ?_⟩
  exact Txn.Codec.not_beyond_iff.mp (by simp [hno.2])

theorem not_skipped {k : Bytes} (h : InRange start endKey k) :
    ¬ (k < start ∨ beyond endKey k = true) := by
  intro hskip
  cases hskip with
  | inl hlt => exact absurd h.1 (not_le.mpr hlt)
  | inr hbeyond =>
    have hnot := Txn.Codec.not_beyond_iff.mpr h.2
    rw [hbeyond] at hnot
    cases hnot

section

variable (hsorted : rows.Pairwise (fun a b => a.1 < b.1))

include hsorted

theorem overlayOne_put {k : Bytes} (h : InRange start endKey k) (value : Bytes) :
    overlayOne start endKey rows (k, .put value) = SortedMap.insertEntry k value rows := by
  unfold overlayOne
  rw [if_neg (not_skipped h)]
  dsimp only
  induction rows with
  | nil => rfl
  | cons row rows ih =>
    unfold SortedMap.insertEntry
    by_cases hlt : row.1 < k
    · have hrest := ih hsorted.tail
      rw [takeWhile_cons_of_pos (by simpa using hlt),
        List.dropWhile_cons_of_pos (by simpa using hlt), if_neg (lt_asymm hlt),
        if_neg (ne_of_gt hlt), ← hrest]
      split_ifs <;> rfl
    · rw [takeWhile_cons_of_neg (by simpa using hlt), dropWhile_cons_of_neg (by simpa using hlt)]
      by_cases heq : row.1 = k
      · rw [if_pos (by simpa using heq), if_neg (by rw [heq]; exact lt_irrefl k), if_pos heq.symm]
        rfl
      · have hgt : k < row.1 := lt_of_le_of_ne (not_lt.mp hlt) (Ne.symm heq)
        rw [if_neg (by simpa using heq), if_pos hgt]
        rfl

theorem overlayOne_delete {k : Bytes} (h : InRange start endKey k) :
    overlayOne start endKey rows (k, .delete) = rows.filter (fun row => row.1 ≠ k) := by
  unfold overlayOne
  rw [if_neg (not_skipped h)]
  dsimp only
  induction rows with
  | nil => rfl
  | cons row rows ih =>
    by_cases hlt : row.1 < k
    · have hrest := ih hsorted.tail
      rw [takeWhile_cons_of_pos (by simpa using hlt),
        List.dropWhile_cons_of_pos (by simpa using hlt),
        filter_cons_of_pos (by simpa using ne_of_lt hlt), ← hrest]
      split_ifs <;> rfl
    · -- every later key is greater
      have hlater : ∀ a ∈ rows, decide (a.1 ≠ k) = true := by
        intro a ha
        have hra : row.1 < a.1 := rel_of_pairwise_cons hsorted ha
        exact decide_eq_true (ne_of_gt (lt_of_le_of_lt (not_lt.mp hlt) hra))
      rw [takeWhile_cons_of_neg (by simpa using hlt), dropWhile_cons_of_neg (by simpa using hlt)]
      by_cases heq : row.1 = k
      · rw [if_pos (by simpa using heq), List.filter_cons_of_neg (by simpa using heq),
          filter_eq_self.mpr hlater]
        rfl
      · rw [if_neg (by simpa using heq), filter_cons_of_pos (by simpa using heq),
          filter_eq_self.mpr hlater]

theorem sorted_overlayOne (m : Bytes × Mutation) :
    (overlayOne start endKey rows m).Pairwise (fun a b => a.1 < b.1) := by
  by_cases hin : InRange start endKey m.1
  · obtain ⟨k, op⟩ := m
    cases op with
    | put value =>
      rw [overlayOne_put hsorted hin]
      exact SortedMap.sorted_insertEntry k value hsorted
    | delete =>
      rw [overlayOne_delete hsorted hin]
      exact hsorted.filter _
  · rw [overlayOne_outside hin]
    exact hsorted

theorem mem_overlayOne (m : Bytes × Mutation) (k v : Bytes) :
    (k, v) ∈ overlayOne start endKey rows m ↔
      if k = m.1 ∧ InRange start endKey k then m.2.value? = some v else (k, v) ∈ rows := by
  by_cases hin : InRange start endKey m.1
  · obtain ⟨key, op⟩ := m
    cases op with
    | put value =>
      rw [overlayOne_put hsorted hin, SortedMap.mem_insertEntry hsorted]
      by_cases hk : k = key
      · have hin' : InRange start endKey key := hin
        simp [hk, hin', Mutation.value?, eq_comm]
      · simp [hk]
    | delete =>
      rw [overlayOne_delete hsorted hin, mem_filter]
      by_cases hk : k = key
      · have hin' : InRange start endKey key := hin
        simp [hk, hin', Mutation.value?]
      · simp [hk]
  · rw [overlayOne_outside hin, if_neg]
    rintro ⟨hk, hin'⟩
    exact hin (hk ▸ hin')

theorem sorted_overlay (buffer : Buffer) :
    (overlay start endKey rows buffer).Pairwise (fun a b => a.1 < b.1) := by
  unfold overlay
  generalize buffer.entries = ms
  induction ms generalizing rows with
  | nil => exact hsorted
  | cons m ms ih => exact ih (sorted_overlayOne hsorted m)

theorem mem_foldl_of_unbuffered {ms : List (Bytes × Mutation)} {k : Bytes}
    (hno : ∀ m ∈ ms, m.1 ≠ k) (v : Bytes) :
    (k, v) ∈ ms.foldl (overlayOne start endKey) rows ↔ (k, v) ∈ rows := by
  induction ms generalizing rows with
  | nil => rfl
  | cons m ms ih =>
    have hm : ¬ (k = m.1 ∧ InRange start endKey k) := fun h => hno m mem_cons_self h.1.symm
    rw [foldl_cons, ih (sorted_overlayOne hsorted m)
      fun a ha => hno a (mem_cons_of_mem m ha), mem_overlayOne hsorted, if_neg hm]

theorem mem_foldl_of_buffered {ms : List (Bytes × Mutation)}
    (hms : ms.Pairwise (fun a b => a.1 < b.1)) {k : Bytes} {op : Mutation} (hmem : (k, op) ∈ ms)
    (v : Bytes) :
    (k, v) ∈ ms.foldl (overlayOne start endKey) rows ↔
      if InRange start endKey k then op.value? = some v else (k, v) ∈ rows := by
  induction ms generalizing rows with
  | nil => cases hmem
  | cons m ms ih =>
    have hrows := @sorted_overlayOne start endKey rows hsorted m
    have hhead : ∀ a ∈ ms, m.1 < a.1 := fun a ha => rel_of_pairwise_cons hms ha
    rw [foldl_cons]
    cases hmem with
    | head =>
      rw [mem_foldl_of_unbuffered hrows fun a ha => ne_of_gt (hhead a ha), mem_overlayOne hsorted]
      simp
    | tail _ hmem =>
      have hm : ¬ (k = m.1 ∧ InRange start endKey k) :=
        fun h => absurd h.1 (ne_of_gt (hhead _ hmem))
      rw [ih hrows hms.tail hmem, mem_overlayOne hsorted, if_neg hm]

theorem mem_overlay (buffer : Buffer) (k v : Bytes) :
    (k, v) ∈ overlay start endKey rows buffer ↔
      if InRange start endKey k ∧ (buffer.get? k).isSome then
        (buffer.get? k).bind Mutation.value? = some v
      else (k, v) ∈ rows := by
  unfold overlay
  cases hget : buffer.get? k with
  | none =>
    rw [mem_foldl_of_unbuffered hsorted]
    · simp
    · intro m hm hk
      have hsome := SortedMap.mem_entries.mp (show (k, m.2) ∈ buffer.entries from hk ▸ hm)
      rw [hget] at hsome
      cases hsome
  | some op =>
    rw [mem_foldl_of_buffered hsorted buffer.sorted (SortedMap.mem_entries.mpr hget)]
    simp

end

end Overlay

end Flotilla.Client
