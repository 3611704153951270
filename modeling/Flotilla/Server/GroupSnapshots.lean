/-
  Server.GroupSnapshots — the snapshot of a group as bytes,
  `ForEachOwnedPair`, `SerializeStateMachine` and `ApplySnapshot` of
  `server/raft_group.cc`.

  All groups of a node share one database.  A group's snapshot holds the pairs of
  its range, which are found in two ways: raw keys by their order in the
  database, transactional records by the order of their escaped user keys.

  `applySnapshot` also says whether the restore went through; where it did not,
  the process aborts after the writes that it made.
-/
import Flotilla.Server.RangeScans
import Flotilla.Server.SplitCommands

namespace Flotilla.Server.RaftGroup

open Decoder SortedMap
open Flotilla.Txn.Codec

/-! ## Keys. -/

def appliedKey (groupId : Nat) : Bytes := 0 :: (text "applied/" ++ decimal groupId)

def rangeKey (rangeId : Nat) : Bytes := 0 :: (text "range/" ++ decimal rangeId)

def spawnsKey (groupId : Nat) : Bytes := 0 :: (text "spawns/" ++ decimal groupId)

def isSystemKey (key : Bytes) : Bool := key.head? = some 0

/-- The key of a lock, write or data record of a user key. -/
def RecordOf (userKey key : Bytes) : Prop :=
  key = lockKey userKey ∨ (∃ ts, key = writeKey userKey ts) ∨ ∃ ts, key = dataKey userKey ts

/-- The keys of a range: raw keys in it, and the records of user keys in it. -/
def Owns (range : RangeDesc) (key : Bytes) : Prop :=
  (isReservedKey key = false ∧ range.Contains key) ∨ ∃ k, range.Contains k ∧ RecordOf k key

/-! ## Snapshots. -/

/-- The pairs that `fn` is called with, in order. -/
def forEachOwnedPair (db : DB) (range : RangeDesc) : List (Bytes × Bytes) :=
  (rawVisits db range.start range.endKey).filter
      (fun e => !(isReservedKey e.1 || isSystemKey e.1)) ++
    [kLockPrefix, kWritePrefix, kDataPrefix].flatMap
      (fun p => visits db p range.start range.endKey)

def encodeSpawn (d : RangeDesc) : Bytes :=
  putFixed32 d.id ++ putLengthPrefixed d.start ++ putLengthPrefixed d.endKey

def encodeSpawns (spawns : List RangeDesc) : Bytes :=
  putFixed32 spawns.length ++ spawns.flatMap encodeSpawn

def encodePair (e : Bytes × Bytes) : Bytes := putLengthPrefixed e.1 ++ putLengthPrefixed e.2

/-- `range_` and `spawned_` of the group, then its pairs. -/
def serializeStateMachine (db : DB) (range : RangeDesc) (spawns : List RangeDesc) : Bytes :=
  let pairs := forEachOwnedPair db range
  putLengthPrefixed range.start ++ putLengthPrefixed range.endKey ++ encodeSpawns spawns ++
    putFixed32 pairs.length ++ pairs.flatMap encodePair

def decodeSpawnList : Nat → Decoder → List RangeDesc × Decoder
  | 0, d => ([], d)
  | n + 1, d =>
      if d.ok = false then ([], d)
      else
        let id := d.u32
        let start := id.2.lengthPrefixed
        let endKey := start.2.lengthPrefixed
        let rest := decodeSpawnList n endKey.2
        (⟨id.1, start.1, endKey.1⟩ :: rest.1, rest.2)

def restorePairs : Nat → Decoder → DB → DB × Decoder
  | 0, d, db => (db, d)
  | n + 1, d, db =>
      if d.ok = false then (db, d)
      else
        let key := d.lengthPrefixed
        let value := key.2.lengthPrefixed
        restorePairs n value.2 (if value.2.ok then db.insert key.1 value.1 else db)

/-- The database after the restore, and whether it went through. -/
def applySnapshot (db : DB) (groupId lastIndex : Nat) (data : Bytes) : DB × Bool :=
  let start := (⟨data, false⟩ : Decoder).lengthPrefixed
  let endKey := start.2.lengthPrefixed
  let range : RangeDesc := ⟨groupId, start.1, endKey.1⟩
  let nspawns := endKey.2.u32
  let spawns := decodeSpawnList nspawns.1 nspawns.2
  let count := spawns.2.u32
  -- wipe exactly the snapshot's range, then insert its contents
  let toDelete := (forEachOwnedPair db range).map Prod.fst
  let wiped := toDelete.foldl SortedMap.erase db
  let restored := restorePairs count.1 count.2 wiped
  let ranged := restored.1.insert (rangeKey groupId) (encodeRangeDesc range)
  let spawned := ranged.insert (spawnsKey groupId) (encodeSpawns spawns.1)
  (spawned.insert (appliedKey groupId) (putFixed64 lastIndex), restored.2.ok)

/-! ## The owned pairs. -/

variable {key : Bytes} {range : RangeDesc} {db : DB}

theorem RecordOf.columnKey {k : Bytes} (h : RecordOf k key) :
    columnKey (key.take 2) key = some k := by
  rcases h with h | ⟨ts, h⟩ | ⟨ts, h⟩
  · have hcol := columnKey_append (p := kLockPrefix) rfl k []
    rw [append_nil] at hcol
    rw [h]
    exact hcol
  · rw [h]
    exact columnKey_append (p := kWritePrefix) rfl k (invertedTs ts)
  · rw [h]
    exact columnKey_append (p := kDataPrefix) rfl k (invertedTs ts)

theorem RecordOf.head? {k : Bytes} (h : RecordOf k key) : key.head? = some 33 := by
  rcases h with h | ⟨ts, h⟩ | ⟨ts, h⟩ <;> rw [h] <;> rfl

theorem reserved_of_head (h : key.head? = some 33) : isReservedKey key = true := by
  cases key with
  | nil => cases h
  | cons c key =>
    have hc : c = 33 := Option.some.inj h
    rw [hc]
    rfl

theorem system_reserved (h : isReservedKey key = false) : isSystemKey key = false := by
  cases key with
  | nil => rfl
  | cons c key =>
    unfold isReservedKey at h
    unfold isSystemKey
    simp at h ⊢
    exact h.1

theorem not_owns_system (h : key.head? = some 0) :
    ¬ Owns range key := by
  intro howns
  cases howns with
  | inl hraw =>
    have hsys := system_reserved hraw.1
    unfold isSystemKey at hsys
    rw [h] at hsys
    cases hsys
  | inr hrec =>
    obtain ⟨k, _, hrec⟩ := hrec
    rw [hrec.head?] at h
    cases h

theorem forEachOwnedPair_eq (h : Formed db) (range : RangeDesc) :
    forEachOwnedPair db range =
      (db.entries.filter (fun e => InRange range.start range.endKey e.1)).filter
          (fun e => !isReservedKey e.1) ++
        (column db kLockPrefix range.start range.endKey ++
          (column db kWritePrefix range.start range.endKey ++
            column db kDataPrefix range.start range.endKey)) := by
  unfold forEachOwnedPair
  rw [rawVisits_eq, flatMap_cons, flatMap_cons, flatMap_singleton,
    visits_eq h.lockColumn, visits_eq h.writeColumn, visits_eq h.dataColumn]
  congr 1
  apply filter_congr
  intro e _
  cases hraw : isReservedKey e.1 with
  | true => rfl
  | false => rw [system_reserved hraw]; rfl

theorem mem_forEachOwnedPair {db : DB} (h : Formed db) {range : RangeDesc} {e : Bytes × Bytes} :
    e ∈ forEachOwnedPair db range ↔ db.get? e.1 = some e.2 ∧ Owns range e.1 := by
  rw [forEachOwnedPair_eq h, mem_append, mem_append, mem_append, mem_filter,
    mem_filter, mem_lockColumn h, mem_writeColumn h, mem_dataColumn h]
  constructor
  · rintro (⟨⟨hmem, hin⟩, hraw⟩ | ⟨k, hk, hin, hget⟩ | ⟨k, ts, hk, hin, hget⟩ |
      ⟨k, ts, hk, hin, hget⟩)
    · exact ⟨SortedMap.mem_entries.mp hmem, .inl ⟨by simpa using hraw, of_decide_eq_true hin⟩⟩
    · exact ⟨hk ▸ hget, .inr ⟨k, hin, .inl hk⟩⟩
    · exact ⟨hget, .inr ⟨k, hin, .inr (.inl ⟨ts, hk⟩)⟩⟩
    · exact ⟨hget, .inr ⟨k, hin, .inr (.inr ⟨ts, hk⟩)⟩⟩
  · rintro ⟨hget, ⟨hraw, hin⟩ | ⟨k, hin, hk | ⟨ts, hk⟩ | ⟨ts, hk⟩⟩⟩
    · exact .inl ⟨⟨SortedMap.mem_entries.mpr hget, decide_eq_true hin⟩, by simpa using hraw⟩
    · exact .inr (.inl ⟨k, hk, hin, hk ▸ hget⟩)
    · exact .inr (.inr (.inl ⟨k, ts, hk, hin, hget⟩))
    · exact .inr (.inr (.inr ⟨k, ts, hk, hin, hget⟩))

theorem take_two_column {p start endKey : Bytes} {e : Bytes × Bytes}
    (h : e ∈ column db p start endKey) : e.1.take 2 = p := by
  obtain ⟨k, hk, _⟩ := any_eq_true _ _ |>.mp (mem_filter.mp h).2
  by_contra hne
  unfold columnKey at hk
  rw [if_neg hne] at hk
  cases hk

theorem forEachOwnedPair_distinct (h : Formed db) (range : RangeDesc) :
    (forEachOwnedPair db range).Pairwise (fun a b => a.1 ≠ b.1) := by
  have hcolumn : ∀ p, (column db p range.start range.endKey).Pairwise (fun a b => a.1 ≠ b.1) :=
    fun p => (sorted_column p _ _).imp fun hlt => ne_of_lt hlt
  have hapart : ∀ {p q : Bytes}, p ≠ q → ∀ a ∈ column db p range.start range.endKey,
      ∀ b ∈ column db q range.start range.endKey, a.1 ≠ b.1 := by
    intro p q hpq a ha b hb heq
    exact hpq ((take_two_column ha).symm.trans (heq ▸ take_two_column hb))
  have hraw : ∀ {c : UInt8}, ∀ a ∈ (db.entries.filter
      (fun e => InRange range.start range.endKey e.1)).filter (fun e => !isReservedKey e.1),
      ∀ b ∈ column db [33, c] range.start range.endKey, a.1 ≠ b.1 := by
    intro c a ha b hb heq
    have hhead : b.1.head? = some 33 := by
      have htake := congrArg List.head? (take_two_column hb)
      rw [List.head?_take] at htake
      simpa using htake
    have hres := reserved_of_head hhead
    have hnot := (mem_filter.mp ha).2
    rw [heq, hres] at hnot
    cases hnot
  rw [forEachOwnedPair_eq h]
  refine pairwise_append.mpr ⟨?_, ?_, fun a ha b hb => ?_⟩
  · exact ((db.sorted.filter _).filter _).imp fun hlt => ne_of_lt hlt
  · refine pairwise_append.mpr ⟨hcolumn _, ?_, fun a ha b hb => ?_⟩
    · exact pairwise_append.mpr ⟨hcolumn _, hcolumn _, hapart (by decide)⟩
    · cases mem_append.mp hb with
      | inl hb | inr hb => exact hapart (by decide) a ha b hb
  · cases mem_append.mp hb with
    | inl hb => exact hraw a ha b hb
    | inr hb =>
      cases mem_append.mp hb with
      | inl hb | inr hb => exact hraw a ha b hb

theorem exists_unique_owner {own : Nat → Option RangeDesc} (h : Partition own)
    (hkey : isReservedKey key = false ∨ ∃ k, RecordOf k key) :
    ∃ i, (∃ d, own i = some d ∧ Owns d key) ∧
      ∀ j, (∃ d, own j = some d ∧ Owns d key) → j = i := by
  -- the user key decides, and a key has one user key
  have huser : ∃ u, ∀ d : RangeDesc, Owns d key ↔ d.Contains u := by
    cases hkey with
    | inl hraw =>
      refine ⟨key, fun d => ⟨fun hown => ?_, fun hin => .inl ⟨hraw, hin⟩⟩⟩
      cases hown with
      | inl hown => exact hown.2
      | inr hown =>
        obtain ⟨k, _, hrec⟩ := hown
        rw [reserved_of_head hrec.head?] at hraw
        cases hraw
    | inr htxn =>
      obtain ⟨u, hu⟩ := htxn
      refine ⟨u, fun d => ⟨fun hown => ?_, fun hin => .inr ⟨u, hin, hu⟩⟩⟩
      cases hown with
      | inl hown =>
        rw [reserved_of_head hu.head?] at hown
        cases hown.1
      | inr hown =>
        obtain ⟨k, hin, hrec⟩ := hown
        have hsame := hrec.columnKey.symm.trans hu.columnKey
        exact Option.some.inj hsame ▸ hin
  obtain ⟨u, hu⟩ := huser
  obtain ⟨i, d, hd, hin⟩ := h.cover u
  refine ⟨i, ⟨d, hd, (hu d).mpr hin⟩, fun j hj => ?_⟩
  obtain ⟨e, he, hown⟩ := hj
  exact h.apart he hd ((hu e).mp hown) hin

/-! ## Reading the snapshot. -/

/-- The children that a group has spawned can be written down. -/
structure SpawnsFit (spawns : List RangeDesc) : Prop where
  count : spawns.length < 2 ^ 32
  ids : ∀ d ∈ spawns, d.id < 2 ^ 32
  short : ∀ d ∈ spawns, d.Short

theorem decodeSpawnList_encode {spawns : List RangeDesc} (hids : ∀ d ∈ spawns, d.id < 2 ^ 32)
    (hshort : ∀ d ∈ spawns, d.Short) (rest : Bytes) :
    decodeSpawnList spawns.length ⟨spawns.flatMap encodeSpawn ++ rest, false⟩ =
      (spawns, ⟨rest, false⟩) := by
  induction spawns with
  | nil => rfl
  | cons d spawns ih =>
    have hrest := ih (fun e he => hids e (mem_cons_of_mem d he))
      (fun e he => hshort e (mem_cons_of_mem d he))
    have hd := hshort d mem_cons_self
    rw [flatMap_cons, length_cons,
      show encodeSpawn d = putFixed32 d.id ++ putLengthPrefixed d.start ++
        putLengthPrefixed d.endKey from rfl]
    unfold decodeSpawnList
    simp only [append_assoc, Decoder.ok, Bool.not_false, Bool.true_eq_false, if_false,
      u32_put (hids d mem_cons_self), lengthPrefixed_put hd.1,
      lengthPrefixed_put hd.2]
    rw [hrest]

theorem restorePairs_encode {pairs : List (Bytes × Bytes)}
    (hfits : ∀ e ∈ pairs, e.1.length < 2 ^ 32 ∧ e.2.length < 2 ^ 32) (rest : Bytes) (db : DB) :
    restorePairs pairs.length ⟨pairs.flatMap encodePair ++ rest, false⟩ db =
      (pairs.foldl (fun db e => db.insert e.1 e.2) db, ⟨rest, false⟩) := by
  induction pairs generalizing db with
  | nil => rfl
  | cons e pairs ih =>
    have hrest := ih fun a ha => hfits a (mem_cons_of_mem e ha)
    have he := hfits e mem_cons_self
    rw [flatMap_cons, length_cons, foldl_cons,
      show encodePair e = putLengthPrefixed e.1 ++ putLengthPrefixed e.2 from rfl]
    unfold restorePairs
    simp only [append_assoc, Decoder.ok, Bool.not_false, Bool.true_eq_false, if_false,
      lengthPrefixed_put he.1, lengthPrefixed_put he.2, if_true]
    exact hrest _

theorem restorePairs_short (n : Nat) (d : Decoder) (db : DB) :
    ∃ pairs : List (Bytes × Bytes), pairs.length ≤ n ∧
      (∀ e ∈ pairs, e.1.length < 2 ^ 32 ∧ e.2.length < 2 ^ 32) ∧
      (restorePairs n d db).1 = pairs.foldl (fun db e => db.insert e.1 e.2) db := by
  induction n generalizing d db with
  | zero => exact ⟨[], Nat.le_refl 0, fun e he => (by cases he), rfl⟩
  | succ n ih =>
    unfold restorePairs
    by_cases hok : d.ok = false
    · rw [if_pos hok]
      exact ⟨[], Nat.zero_le _, fun e he => (by cases he), rfl⟩
    · rw [if_neg hok]
      dsimp only
      by_cases hvalue : d.lengthPrefixed.2.lengthPrefixed.2.ok = true
      · rw [if_pos hvalue]
        obtain ⟨pairs, hlen, hshort, heq⟩ := ih d.lengthPrefixed.2.lengthPrefixed.2
          (db.insert d.lengthPrefixed.1 d.lengthPrefixed.2.lengthPrefixed.1)
        refine ⟨(d.lengthPrefixed.1, d.lengthPrefixed.2.lengthPrefixed.1) :: pairs,
          Nat.succ_le_succ hlen, fun e he => ?_, heq⟩
        cases he with
        | head => exact ⟨length_lengthPrefixed d, length_lengthPrefixed _⟩
        | tail _ he => exact hshort e he
      · rw [if_neg hvalue]
        obtain ⟨pairs, hlen, hshort, heq⟩ := ih d.lengthPrefixed.2.lengthPrefixed.2 db
        exact ⟨pairs, Nat.le_succ_of_le hlen, hshort, heq⟩

/-! ## The restore. -/

/-- The target without the pairs of the range. -/
def wipe (db : DB) (range : RangeDesc) : DB :=
  ((forEachOwnedPair db range).map Prod.fst).foldl SortedMap.erase db

theorem get?_wipe {db : DB} (h : Formed db) (range : RangeDesc) (key : Bytes) :
    (Owns range key → (wipe db range).get? key = none) ∧
      (¬ Owns range key → (wipe db range).get? key = db.get? key) := by
  unfold wipe
  rw [get?_foldl_erase]
  constructor
  · intro hown
    by_cases hmem : key ∈ (forEachOwnedPair db range).map Prod.fst
    · rw [if_pos hmem]
    · rw [if_neg hmem]
      cases hget : db.get? key with
      | none => rfl
      | some v =>
        have he := (@mem_forEachOwnedPair db h range (key, v)).mpr ⟨hget, hown⟩
        exact absurd (mem_map.mpr ⟨_, he, rfl⟩) hmem
  · intro hown
    apply if_neg
    intro hmem
    obtain ⟨e, he, hkey⟩ := mem_map.mp hmem
    exact hown (hkey ▸ ((mem_forEachOwnedPair h).mp he).2)

theorem applySnapshot_serialize (source target : DB) (groupId lastIndex : Nat)
    (hrange : range.Short) {spawns : List RangeDesc} (hspawns : SpawnsFit spawns) :
    ∃ restored : DB × Decoder,
      restored = restorePairs ((forEachOwnedPair source range).length % 2 ^ 32)
        ⟨(forEachOwnedPair source range).flatMap encodePair, false⟩
        (wipe target ⟨groupId, range.start, range.endKey⟩) ∧
      applySnapshot target groupId lastIndex (serializeStateMachine source range spawns) =
        (((restored.1.insert (rangeKey groupId)
            (encodeRangeDesc ⟨groupId, range.start, range.endKey⟩)).insert (spawnsKey groupId)
            (encodeSpawns spawns)).insert (appliedKey groupId) (putFixed64 lastIndex),
          restored.2.ok) := by
  refine ⟨_, rfl, ?_⟩
  have hlist := decodeSpawnList_encode hspawns.ids hspawns.short
    (putFixed32 (forEachOwnedPair source range).length ++
      (forEachOwnedPair source range).flatMap encodePair)
  have hcount := fixed_putFixed 4 (forEachOwnedPair source range).length
    ((forEachOwnedPair source range).flatMap encodePair)
  unfold applySnapshot serializeStateMachine encodeSpawns
  simp only [append_assoc, lengthPrefixed_put hrange.1,
    lengthPrefixed_put hrange.2, u32_put hspawns.count, hlist]
  unfold putFixed32 u32
  rw [hcount]
  rfl

/-- What a restore is for: the owned pairs are those of the source, and all others stay, but
for the three keys of the group itself. -/
structure Restores (source target after : DB) (groupId : Nat) (range : RangeDesc) : Prop where
  owned : ∀ key, Owns range key → after.get? key = source.get? key
  frame : ∀ key, ¬ Owns range key → key ≠ rangeKey groupId → key ≠ spawnsKey groupId →
    key ≠ appliedKey groupId → after.get? key = target.get? key

/-- The owned pairs of the source, one by one and in number, fit their 32 bits. -/
structure PairsFit (source : DB) (range : RangeDesc) : Prop where
  lengths : ∀ key v, source.get? key = some v → Owns range key →
    key.length < 2 ^ 32 ∧ v.length < 2 ^ 32
  count : (forEachOwnedPair source range).length < 2 ^ 32

theorem get?_marked {groupId : Nat} {r sp ap : Bytes} (hr : key ≠ rangeKey groupId)
    (hs : key ≠ spawnsKey groupId) (ha : key ≠ appliedKey groupId) :
    (((db.insert (rangeKey groupId) r).insert (spawnsKey groupId) sp).insert
      (appliedKey groupId) ap).get? key = db.get? key := by
  rw [get?_insert, if_neg ha, get?_insert, if_neg hs, get?_insert, if_neg hr]

theorem ne_system_of_owns (h : Owns range key) (groupId : Nat) :
    key ≠ rangeKey groupId ∧ key ≠ spawnsKey groupId ∧ key ≠ appliedKey groupId := by
  refine ⟨?_, ?_, ?_⟩
  all_goals
    intro heq
    rw [heq] at h
    exact not_owns_system rfl h

section Restore

variable {source target : DB} (hsource : Formed source) (htarget : Formed target)
  {groupId lastIndex : Nat} {range : RangeDesc} (hrange : range.Short) {spawns : List RangeDesc}
  (hspawns : SpawnsFit spawns)

include hsource htarget hrange hspawns

theorem restores_of_fits (hfits : PairsFit source range) :
    (applySnapshot target groupId lastIndex (serializeStateMachine source range spawns)).2 = true ∧
      Restores source target
        (applySnapshot target groupId lastIndex (serializeStateMachine source range spawns)).1
        groupId range := by
  obtain ⟨restored, hrestored, happly⟩ :=
    applySnapshot_serialize source target groupId lastIndex hrange hspawns
  have hpairs : ∀ e ∈ forEachOwnedPair source range, e.1.length < 2 ^ 32 ∧ e.2.length < 2 ^ 32 := by
    intro e he
    have hown := (mem_forEachOwnedPair hsource).mp he
    exact hfits.lengths e.1 e.2 hown.1 hown.2
  have hread := restorePairs_encode hpairs [] (wipe target ⟨groupId, range.start, range.endKey⟩)
  rw [append_nil] at hread
  rw [Nat.mod_eq_of_lt hfits.count, hread] at hrestored
  rw [happly, hrestored]
  have hwipe := fun key => @get?_wipe target htarget ⟨groupId, range.start, range.endKey⟩ key
  refine ⟨rfl, ⟨fun key hown => ?_, fun key hown hr hs ha => ?_⟩⟩
  · have hsys := ne_system_of_owns hown groupId
    rw [get?_marked hsys.1 hsys.2.1 hsys.2.2]
    cases hget : source.get? key with
    | some v =>
      have he := (@mem_forEachOwnedPair source hsource range (key, v)).mpr ⟨hget, hown⟩
      exact get?_foldl_insert_of_mem _ (forEachOwnedPair_distinct hsource range) he
    | none =>
      rw [get?_foldl_insert_of_not_mem]
      · exact (hwipe key).1 hown
      · intro e he hkey
        have hsome := ((mem_forEachOwnedPair hsource).mp he).1
        rw [hkey, hget] at hsome
        cases hsome
  · rw [get?_marked hr hs ha, get?_foldl_insert_of_not_mem]
    · exact (hwipe key).2 hown
    · intro e he hkey
      exact hown (hkey ▸ ((mem_forEachOwnedPair hsource).mp he).2)

theorem fits_of_restores (h : Restores source target
      (applySnapshot target groupId lastIndex (serializeStateMachine source range spawns)).1
      groupId range) : PairsFit source range := by
  obtain ⟨restored, hrestored, happly⟩ :=
    applySnapshot_serialize source target groupId lastIndex hrange hspawns
  obtain ⟨pairs, hlen, hshort, hfold⟩ := restorePairs_short
    ((forEachOwnedPair source range).length % 2 ^ 32)
    ⟨(forEachOwnedPair source range).flatMap encodePair, false⟩
    (wipe target ⟨groupId, range.start, range.endKey⟩)
  rw [← hrestored] at hfold
  -- the owned pairs of the source are among those that were read
  have hread : ∀ e ∈ forEachOwnedPair source range, e ∈ pairs := by
    intro e he
    have hown := (mem_forEachOwnedPair hsource).mp he
    have hsys := ne_system_of_owns hown.2 groupId
    have hafter := h.owned e.1 hown.2
    rw [happly, get?_marked hsys.1 hsys.2.1 hsys.2.2, hown.1, hfold] at hafter
    cases get?_foldl_insert_cases hafter with
    | inl hmem => exact hmem
    | inr hold =>
      have hnone := (@get?_wipe target htarget ⟨groupId, range.start, range.endKey⟩ e.1).1 hown.2
      rw [hnone] at hold
      cases hold
  refine ⟨fun key v hget hown => ?_, ?_⟩
  · exact hshort (key, v) (hread _ ((mem_forEachOwnedPair hsource).mpr ⟨hget, hown⟩))
  · have hnodup : (forEachOwnedPair source range).Nodup :=
      (forEachOwnedPair_distinct hsource range).imp fun hne heq => hne (congrArg Prod.fst heq)
    have hle := (List.subperm_of_subset hnodup hread).length_le
    omega

end Restore

/-- **Snapshots of a group**: restoring the snapshot of the source on the target makes the owned
pairs of the range those of the source and leaves every other pair alone, exactly when the pairs
fit; and of ranges that partition the keyspace, every raw or transactional key has one owner. -/
theorem snapshot_restores_iff (source target : DB) (hsource : Formed source)
    (htarget : Formed target) (groupId lastIndex : Nat) (range : RangeDesc) (hrange : range.Short)
    (spawns : List RangeDesc) (hspawns : SpawnsFit spawns) :
    ((applySnapshot target groupId lastIndex (serializeStateMachine source range spawns)).2 = true ∧
        Restores source target
          (applySnapshot target groupId lastIndex (serializeStateMachine source range spawns)).1
          groupId range ↔
      PairsFit source range) ∧
    ∀ own : Nat → Option RangeDesc, Partition own → ∀ key : Bytes,
      (isReservedKey key = false ∨ ∃ k, RecordOf k key) →
      ∃ i, (∃ d, own i = some d ∧ Owns d key) ∧
        ∀ j, (∃ d, own j = some d ∧ Owns d key) → j = i :=
  ⟨⟨fun h => fits_of_restores hsource htarget hrange hspawns h.2,
      restores_of_fits hsource htarget hrange hspawns⟩,
    fun _ hown _ hkey => exists_unique_owner hown hkey⟩

theorem empty_readable : Readable .empty := by
  have hbase : Untouched .empty := nofun
  exact hbase.readable

def lockedAt (k : Bytes) : DB :=
  SortedMap.empty.insert (lockKey k) (encodeLock { startTs := 1, op := 1, primary := text "p" })

theorem lockedAt_readable (k : Bytes) : Readable (lockedAt k) := by
  have hshort : (text "p").length < 2 ^ 32 := by decide +kernel
  exact empty_readable.insertLock k hshort

/-- A lock of a key inside the range is restored. -/
theorem snapshot_restores_iff_lockedAt :
    (applySnapshot .empty 7 3 (serializeStateMachine (lockedAt (text "k")) ⟨7, text "a", text "z"⟩
        [])).2 = true ∧
      Restores (lockedAt (text "k")) .empty
        (applySnapshot .empty 7 3 (serializeStateMachine (lockedAt (text "k"))
          ⟨7, text "a", text "z"⟩ [])).1 7 ⟨7, text "a", text "z"⟩ := by
  have hentries : ∀ e ∈ (lockedAt (text "k")).entries,
      e.1.length < 2 ^ 32 ∧ e.2.length < 2 ^ 32 := by decide +kernel
  apply (snapshot_restores_iff (lockedAt (text "k")) .empty (lockedAt_readable _).toFormed
    empty_readable.toFormed 7 3 ⟨7, text "a", text "z"⟩ ⟨by decide +kernel, by decide +kernel⟩ []
    ⟨by decide, fun d hd => (by cases hd), fun d hd => (by cases hd)⟩).1.mpr
  refine ⟨fun key v hget _ => ?_, by decide +kernel⟩
  exact hentries (key, v) (SortedMap.mem_entries.mpr hget)

theorem length_escapeBody_zeros (n : Nat) :
    (escapeBody (List.replicate n 0)).length = 2 * n := by
  induction n with
  | zero => rfl
  | succ n ih =>
    rw [List.replicate_succ, escapeBody_cons, length_append, ih]
    show 2 + 2 * n = 2 * (n + 1)
    omega

/-- Escaping doubles a zero byte: the lock of a user key of 2^31 zero bytes has a key of more
than 2^32, and its snapshot does not bring it back. -/
theorem snapshot_loses_lock :
    ∃ k : Bytes, k.length = 2 ^ 31 ∧
      ¬ ((applySnapshot .empty 1 0 (serializeStateMachine (lockedAt k) ⟨1, [], []⟩ [])).2 = true ∧
        Restores (lockedAt k) .empty
          (applySnapshot .empty 1 0 (serializeStateMachine (lockedAt k) ⟨1, [], []⟩ [])).1 1
          ⟨1, [], []⟩) := by
  obtain ⟨k, hk⟩ : ∃ k : Bytes, k = List.replicate (2 ^ 31) 0 := ⟨_, rfl⟩
  refine ⟨k, by rw [hk, length_replicate], fun h => ?_⟩
  have hfits := fits_of_restores (lockedAt_readable k).toFormed empty_readable.toFormed
    (show (⟨1, [], []⟩ : RangeDesc).Short from ⟨by decide, by decide⟩)
    ⟨by decide, fun d hd => (by cases hd), fun d hd => (by cases hd)⟩ h.2
  have hget : (lockedAt k).get? (lockKey k) =
      some (encodeLock { startTs := 1, op := 1, primary := text "p" }) := by
    unfold lockedAt
    rw [get?_insert, if_pos rfl]
  have hlow : ([] : Bytes) ≤ k := not_lt.mp (not_lt_nil k)
  have hlen := (hfits.lengths _ _ hget (.inr ⟨k, ⟨hlow, .inl rfl⟩, .inl rfl⟩)).1
  have hkey : (lockKey k).length = 2 + (2 * 2 ^ 31 + 2) := by
    unfold lockKey escapeKey
    rw [length_append, length_append, hk, length_escapeBody_zeros]
    rfl
  omega

end Flotilla.Server.RaftGroup
