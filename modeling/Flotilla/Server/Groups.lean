/-
  Server.Groups — the group map of a node under `EnsureGroup`.

  A group that is there stays as it is; a new one is as `RaftGroup::Init` makes
  it, and no record of the database changes.
-/
import Flotilla.Server.Node

namespace Flotilla.Server

/-! ## Replacing one group. -/

theorem lookup_insert_cases {groups : AList (fun _ : Nat => Group)} {i j : Nat} {g g' : Group}
    (h : (groups.insert i g).lookup j = some g') :
    (j = i ∧ g' = g) ∨ (j ≠ i ∧ groups.lookup j = some g') := by
  by_cases hji : j = i
  · rw [hji, AList.lookup_insert] at h
    exact .inl ⟨hji, (Option.some.inj h).symm⟩
  · rw [AList.lookup_insert_ne hji] at h
    exact .inr ⟨hji, h⟩

theorem lookup_insert_ne_none {groups : AList (fun _ : Nat => Group)} {i j : Nat} (g : Group)
    (h : groups.lookup j ≠ none) : (groups.insert i g).lookup j ≠ none := by
  by_cases hji : j = i
  · rw [hji, AList.lookup_insert]
    simp
  · rw [AList.lookup_insert_ne hji]
    exact h

/-- No group is inside an entry. -/
def Node.idle (n : Node) : Bool := n.groups.entries.all fun e => !e.2.applying

def Node.range? (n : Node) (i : Nat) : Option RangeDesc := (n.groups.lookup i).map Group.range

namespace Node

/-- How many entries of a group's log the node has applied; none if it has no such group. -/
def appliedTo (n : Node) (i : Nat) : Nat := ((n.groups.lookup i).map Group.appliedIndex).getD 0

theorem appliedTo_of_lookup {n : Node} {i : Nat} {g : Group} (hg : n.groups.lookup i = some g) :
    n.appliedTo i = g.appliedIndex := by
  unfold appliedTo
  rw [hg]
  rfl

theorem idle_iff {n : Node} :
    n.idle = true ↔ ∀ {i g}, n.groups.lookup i = some g → g.applying = false := by
  unfold idle
  rw [all_eq_true]
  constructor
  · intro h i g hg
    have := h ⟨i, g⟩ (AList.mem_lookup_iff.mp hg)
    simpa using this
  · rintro h ⟨i, g⟩ hmem
    rw [h (AList.mem_lookup_iff.mpr hmem)]
    rfl

/-! ## One group more. -/

@[simp] theorem ensureGroup_db (n : Node) (e : RangeDesc) : (n.ensureGroup e).db = n.db := by
  unfold ensureGroup
  split <;> rfl

theorem lookup_ensureGroup (n : Node) (e : RangeDesc) (j : Nat) :
    (n.ensureGroup e).groups.lookup j =
      (n.groups.lookup j).or (if e.id = j then some (Group.init n.db e) else none) := by
  unfold ensureGroup
  split
  · rename_i g hg
    by_cases hj : e.id = j
    · rw [← hj, hg]
      rfl
    · rw [if_neg hj, or_none]
  · rename_i hnone
    by_cases hj : e.id = j
    · rw [if_pos hj, ← hj, hnone]
      exact AList.lookup_insert _
    · rw [if_neg hj, or_none]
      exact AList.lookup_insert_ne (Ne.symm hj)

theorem lookup_ensureGroup_of_some {n : Node} {j : Nat} {g : Group}
    (h : n.groups.lookup j = some g) (e : RangeDesc) :
    (n.ensureGroup e).groups.lookup j = some g := by
  rw [lookup_ensureGroup, h]
  rfl

theorem lookup_ensureGroup_self (n : Node) (e : RangeDesc) :
    (n.ensureGroup e).groups.lookup e.id ≠ none := by
  rw [lookup_ensureGroup, if_pos rfl]
  cases n.groups.lookup e.id with
  | none | some g => simp

theorem lookup_ensureGroup_cases {n : Node} {e : RangeDesc} {j : Nat} {g : Group}
    (h : (n.ensureGroup e).groups.lookup j = some g) :
    n.groups.lookup j = some g ∨
      (j = e.id ∧ n.groups.lookup e.id = none ∧ g = Group.init n.db e) := by
  rw [lookup_ensureGroup] at h
  cases hj : n.groups.lookup j with
  | some g' =>
    rw [hj] at h
    exact .inl h
  | none =>
    rw [hj, none_or] at h
    split at h
    · rename_i hid
      exact .inr ⟨hid.symm, hid ▸ hj, (Option.some.inj h).symm⟩
    · cases h

/-! ## Several groups more. -/

theorem foldl_ensureGroup_db (n : Node) (ranges : List RangeDesc) :
    (ranges.foldl ensureGroup n).db = n.db := by
  induction ranges generalizing n with
  | nil => rfl
  | cons e ranges ih => rw [foldl_cons, ih, ensureGroup_db]

theorem lookup_foldl_ensureGroup (n : Node) (ranges : List RangeDesc) (j : Nat) :
    (ranges.foldl ensureGroup n).groups.lookup j =
      (n.groups.lookup j).or ((ranges.find? (fun e => e.id = j)).map (Group.init n.db)) := by
  induction ranges generalizing n with
  | nil => exact (or_none).symm
  | cons e ranges ih =>
    rw [foldl_cons, ih, ensureGroup_db, lookup_ensureGroup, Option.or_assoc]
    congr 1
    by_cases hj : e.id = j
    · rw [if_pos hj, List.find?_cons_of_pos (by simpa using hj)]
      rfl
    · rw [if_neg hj, List.find?_cons_of_neg (by simpa using hj), none_or]

theorem foldl_ensureGroup_hosted {n : Node} {ranges : List RangeDesc}
    (h : ∀ e ∈ ranges, n.groups.lookup e.id ≠ none) : ranges.foldl ensureGroup n = n := by
  induction ranges with
  | nil => rfl
  | cons e ranges ih =>
    obtain ⟨g, hg⟩ := ne_none_iff_exists'.mp (h e mem_cons_self)
    have hsame : n.ensureGroup e = n := by
      unfold ensureGroup
      rw [hg]
    rw [foldl_cons, hsame]
    exact ih (fun e' he => h e' (mem_cons_of_mem e he))

end Node

end Flotilla.Server
