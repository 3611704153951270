/-
  Storage.Memtable — the sorted table in memory, `storage/memtable.cc`.

  Entries stand by key, newest first.  Here the table is the list that the lowest
  level of the skiplist links; `insert` places an entry where
  `FindGreaterOrEqual` stops.
-/
import Flotilla.Storage.Wal

namespace Flotilla.Storage

open SortedRuns (Lt Run)

/-! ## The order. -/

theorem lt_iff_internalCompare (a b : Entry) :
    Lt a b ↔ internalCompare a.key a.seqno b.key b.seqno < 0 := by
  show a.key < b.key ∨ (a.key = b.key ∧ b.seqno < a.seqno) ↔ _
  unfold internalCompare
  rcases lt_trichotomy a.key b.key with hlt | heq | hgt
  · simp [hlt]
  · rw [heq, if_neg (lt_irrefl _), if_neg (lt_irrefl _)]
    by_cases hseq : b.seqno < a.seqno
    · simp [hseq]
    · rw [if_neg hseq]
      split <;> simp [hseq]
  · simp [hgt, not_lt_of_gt hgt, ne_of_gt hgt]

/-! ## The table. -/

theorem run_nil : Run ([] : List Entry) := List.Pairwise.nil

structure MemTable where
  entries : List Entry := []
  sorted : Run entries := by exact run_nil
  approximateBytes : Nat := 0

namespace MemTable

def count (m : MemTable) : Nat := m.entries.length

def add (m : MemTable) (e : Entry) : MemTable where
  entries := SortedRuns.insert e m.entries
  sorted := SortedRuns.insert_run m.sorted e
  approximateBytes := m.approximateBytes + (e.key.length + e.value.length + 32)

/-- The first entry that is not below `(key, UINT64_MAX)`, if it has the key. -/
def get (m : MemTable) (key : Key) : Option Entry :=
  (m.entries.dropWhile fun e => internalCompare e.key e.seqno key (2 ^ 64 - 1) < 0).head?.filter
    fun e => e.key = key

theorem get_eq (m : MemTable) (hseq : ∀ e ∈ m.entries, e.seqno < 2 ^ 64) (key : Key) :
    m.get key = m.entries.find? (fun e => e.key = key) := by
  have hsorted : m.entries.Pairwise (fun a b => a.key ≤ b.key) := m.sorted.imp fun h => h.key_le
  apply SortedRuns.head?_dropWhile_key hsorted
  · intro e he
    have hlt := lt_iff_internalCompare e ⟨key, 2 ^ 64 - 1, .put, []⟩
    have hle : ¬ 2 ^ 64 - 1 < e.seqno := by
      have := hseq e he
      omega
    rw [decide_eq_true_iff, ← hlt]
    show e.key < key ∨ (e.key = key ∧ 2 ^ 64 - 1 < e.seqno) ↔ e.key < key
    simp only [hle, and_false, or_false]
  · exact fun e _ => decide_eq_true_iff

end MemTable

end Flotilla.Storage
