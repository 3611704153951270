/-
  Txn.Refinement — the stored bytes behave as the records.

  The protocol is verified over `Store`, three columns of records with numbers
  for timestamps.  The code works on a database of bytes (`Txn/Ops`), in which the
  columns are ranges of encoded keys.  `records` reads the columns out of the
  bytes; every command has the same status on both levels and leaves states that
  correspond, and every read has the same answer.  So what is proved of the records
  is true of the bytes (`stored_transactions_safe`).
-/
import Flotilla.Txn.Replay
import Flotilla.Txn.Scans

namespace Flotilla.Txn.Codec

open SortedMap

/-! ## The records in a database. -/

def opOf (op : UInt8) : WriteOp := if op = 2 then .delete else .put

def kindOf (kind : UInt8) : WriteKind :=
  if kind = kWriteRollback then .rollback else if kind = kWriteDelete then .delete else .put

def lockOf (lock : LockRecord) : Txn.LockRecord :=
  ⟨lock.startTs.toNat, opOf lock.op, lock.wallMs.toNat, lock.primary⟩

def recOf (rec : WriteRecord) : Txn.WriteRecord := ⟨kindOf rec.kind, rec.startTs.toNat⟩

/-- The slot of a pair, if it is in the write column of the key. -/
def slotOf (key : Bytes) (e : Bytes × Bytes) : Option (Nat × Txn.WriteRecord) :=
  match parseWriteKey e.1 with
  | none => none
  | some (userKey, commitTs) =>
      if userKey = key then (decodeWrite e.2).map fun rec => (commitTs.toNat, recOf rec) else none

/-- The records that the bytes hold. -/
def records (db : DB) : Store where
  lock key := ((db.get? (lockKey key)).bind decodeLock).map lockOf
  writes key := db.entries.filterMap (slotOf key)
  data key startTs := if startTs < 2 ^ 64 then db.get? (dataKey key (.ofNat startTs)) else none

variable {db db' : DB} {key k : Bytes} {ts : UInt64}

theorem lockKey_inj (h : lockKey key = lockKey k) : key = k := by
  have hesc : escapeKey key ++ [] = escapeKey k ++ [] := by
    rw [append_nil, append_nil]
    exact append_cancel_left h
  exact (escapeKey_append_inj hesc).1

theorem writeKey_inj {t : UInt64} (h : writeKey key ts = writeKey k t) : key = k ∧ ts = t := by
  have hparse := parseWriteKey_writeKey key ts
  rw [h, parseWriteKey_writeKey] at hparse
  cases hparse
  exact ⟨rfl, rfl⟩

theorem dataKey_inj {t : UInt64} (h : dataKey key ts = dataKey k t) : key = k ∧ ts = t := by
  unfold dataKey at h
  rw [append_assoc, append_assoc] at h
  obtain ⟨hkey, hts⟩ := escapeKey_append_inj (append_cancel_left h)
  have hread := readInvertedTs_invertedTs ts
  rw [hts, readInvertedTs_invertedTs] at hread
  exact ⟨hkey, hread.symm⟩

theorem slotOf_writeKey (key : Bytes) (ts : UInt64) (v : Bytes) :
    slotOf key (writeKey key ts, v) = (decodeWrite v).map fun rec => (ts.toNat, recOf rec) := by
  unfold slotOf
  rw [parseWriteKey_writeKey]
  exact if_pos rfl

theorem slotOf_eq_some {e : Bytes × Bytes} {w : Nat × Txn.WriteRecord}
    (h : slotOf key e = some w) :
    ∃ ts rec, e.1 = writeKey key ts ∧ decodeWrite e.2 = some rec ∧ w = (ts.toNat, recOf rec) := by
  unfold slotOf at h
  split at h
  · cases h
  · rename_i userKey commitTs hparse
    split at h
    · rename_i hkey
      obtain ⟨rec, hrec, rfl⟩ := map_eq_some_iff.mp h
      exact ⟨commitTs, rec, hkey ▸ writeKey_of_parseWriteKey hparse, hrec, rfl⟩
    · cases h

theorem mem_writes {w : Nat × Txn.WriteRecord} : w ∈ (records db).writes key ↔
    ∃ ts v rec, db.get? (writeKey key ts) = some v ∧ decodeWrite v = some rec ∧
      w = (ts.toNat, recOf rec) := by
  constructor
  · intro hw
    obtain ⟨e, he, hslot⟩ := mem_filterMap.mp hw
    obtain ⟨ts, rec, hkey, hrec, rfl⟩ := slotOf_eq_some hslot
    exact ⟨ts, e.2, rec, hkey ▸ mem_entries.mp he, hrec, rfl⟩
  · rintro ⟨ts, v, rec, hget, hrec, rfl⟩
    refine mem_filterMap.mpr ⟨(writeKey key ts, v), mem_entries.mpr hget, ?_⟩
    rw [slotOf_writeKey, hrec]
    rfl

theorem slots_sorted {es : List (Bytes × Bytes)} (h : es.Pairwise fun a b => a.1 < b.1) :
    (es.filterMap (slotOf key)).Pairwise fun a b => b.1 < a.1 := by
  refine List.Pairwise.filterMap _ ?_ h
  intro a b hab w hw w' hw'
  obtain ⟨s, rec, ha, _, rfl⟩ := slotOf_eq_some hw
  obtain ⟨t, rec', hb, _, rfl⟩ := slotOf_eq_some hw'
  rw [ha, hb] at hab
  rcases (stamped_lt_iff kWritePrefix key key s t).mp hab with hlt | hlt
  · exact absurd hlt (lt_irrefl _)
  · exact UInt64.lt_iff_toNat_lt.mp hlt.2

theorem writes_sorted (db : DB) (key : Bytes) :
    ((records db).writes key).Pairwise fun a b => b.1 < a.1 :=
  slots_sorted db.sorted

theorem slots_ext {xs ys : List (Nat × Txn.WriteRecord)} (hxs : xs.Pairwise fun a b => b.1 < a.1)
    (hys : ys.Pairwise fun a b => b.1 < a.1) (h : ∀ w, w ∈ xs ↔ w ∈ ys) : xs = ys :=
  SortedMap.eq_of_mem_iff (K := Natᵒᵈ) hxs hys h

theorem writes_congr (h : ∀ ts, db'.get? (writeKey key ts) = db.get? (writeKey key ts)) :
    (records db').writes key = (records db).writes key := by
  refine slots_ext (writes_sorted db' key) (writes_sorted db key) fun w => ?_
  rw [mem_writes, mem_writes]
  simp only [h]

theorem lock_eq (db : DB) (key : Bytes) :
    (records db).lock key = ((db.get? (lockKey key)).bind decodeLock).map lockOf := rfl

theorem lock_congr (h : db'.get? (lockKey key) = db.get? (lockKey key)) :
    (records db').lock key = (records db).lock key := by
  rw [lock_eq, lock_eq, h]

theorem data_congr (h : ∀ ts, db'.get? (dataKey key ts) = db.get? (dataKey key ts)) :
    (records db').data key = (records db).data key := by
  unfold records
  simp only [h]

theorem data_eq (db : DB) (key : Bytes) (ts : UInt64) :
    (records db).data key ts.toNat = db.get? (dataKey key ts) := by
  unfold records
  simp only [UInt64.ofNat_toNat]
  exact if_pos ts.toNat_lt

/-! ## Database writes. -/

theorem records_eq {st : Store} (hlock : ∀ k, (records db).lock k = st.lock k)
    (hwrites : ∀ k, (records db).writes k = st.writes k)
    (hdata : ∀ k, (records db).data k = st.data k) : records db = st := by
  have hsame : Store.mk (records db).lock (records db).writes (records db).data =
      Store.mk st.lock st.writes st.data := by
    rw [funext hlock, funext hwrites, funext hdata]
  exact hsame

/-- `db'` is `db` with `v` at the key `k₀`, or with nothing there. -/
def Changed (db db' : DB) (k₀ : Bytes) (v : Option Bytes) : Prop :=
  ∀ k, db'.get? k = if k = k₀ then v else db.get? k

theorem changed_insert (db : DB) (k₀ v : Bytes) : Changed db (db.insert k₀ v) k₀ (some v) := by
  intro k
  rw [get?_insert]
  congr

theorem changed_erase (db : DB) (k₀ : Bytes) : Changed db (db.erase k₀) k₀ none := by
  intro k
  rw [get?_erase]
  congr

theorem records_lock {v : Option Bytes} (h : Changed db db' (lockKey key) v) :
    records db' = { records db with
      lock := update (records db).lock key ((v.bind decodeLock).map lockOf) } := by
  refine records_eq (fun k => ?_) (fun k => writes_congr fun t => ?_)
    fun k => data_congr fun t => ?_
  · show _ = update (records db).lock key _ k
    rw [update_apply, lock_eq, h]
    by_cases hk : k = key
    · rw [if_pos hk, if_pos (congrArg lockKey hk)]
    · rw [if_neg hk, if_neg fun heq => hk (lockKey_inj heq)]
      rfl
  · rw [h, if_neg (lockKey_ne_writeKey key k t).symm]
  · rw [h, if_neg (lockKey_ne_dataKey key k t).symm]

theorem records_putLock (db : DB) (key : Bytes) {lock : LockRecord}
    (h : lock.primary.length < 2 ^ 32) :
    records (db.insert (lockKey key) (encodeLock lock)) =
      (records db).apply (.putLock key (lockOf lock)) := by
  have hput := records_lock (changed_insert db (lockKey key) (encodeLock lock))
  rw [Option.bind_some, decodeLock_encodeLock h] at hput
  exact hput

theorem records_deleteLock (db : DB) (key : Bytes) :
    records (db.erase (lockKey key)) = (records db).apply (.deleteLock key) :=
  records_lock (changed_erase db (lockKey key))

theorem records_putWrite {rec : WriteRecord} (hlow : 1 ≤ rec.kind) (hhigh : rec.kind ≤ 3) :
    records (db.insert (writeKey key ts) (encodeWrite rec)) =
      (records db).apply (.putWrite key ts.toNat (recOf rec)) := by
  refine records_eq (fun k => lock_congr ?_) (fun k => ?_) fun k => data_congr fun t => ?_
  · rw [get?_insert, if_neg (lockKey_ne_writeKey k key ts)]
  · show _ = update (records db).writes key (insertWrite ts.toNat (recOf rec) _) k
    rw [update_apply]
    by_cases hk : k = key
    · subst hk
      -- both columns are sorted, so their members decide
      have hsorted := writes_sorted db k
      rw [if_pos rfl]
      refine slots_ext (writes_sorted _ k) (sorted_insertWrite _ _ hsorted) fun w => ?_
      rw [mem_insertWrite_iff hsorted, mem_writes, mem_writes]
      constructor
      · rintro ⟨t, v, r, hget, hdec, rfl⟩
        rw [get?_insert] at hget
        by_cases ht : t = ts
        · rw [if_pos (by rw [ht])] at hget
          cases hget
          rw [decodeWrite_encodeWrite hlow hhigh] at hdec
          cases hdec
          exact .inl (by rw [ht])
        · rw [if_neg fun heq => ht (writeKey_inj heq).2] at hget
          exact .inr ⟨⟨t, v, r, hget, hdec, rfl⟩, fun heq => ht (UInt64.toNat_inj.mp heq)⟩
      · rintro (rfl | ⟨⟨t, v, r, hget, hdec, rfl⟩, hne⟩)
        · refine ⟨ts, _, rec, ?_, decodeWrite_encodeWrite hlow hhigh, rfl⟩
          rw [get?_insert, if_pos rfl]
        · refine ⟨t, v, r, ?_, hdec, rfl⟩
          rw [get?_insert, if_neg fun heq => hne (by rw [(writeKey_inj heq).2]), hget]
    · rw [if_neg hk]
      refine writes_congr fun t => ?_
      rw [get?_insert, if_neg fun heq => hk (writeKey_inj heq).1]
  · rw [get?_insert, if_neg (writeKey_ne_dataKey key k ts t).symm]

theorem records_data {v : Option Bytes} (h : Changed db db' (dataKey key ts) v) :
    records db' = { records db with
      data := update (records db).data key (update ((records db).data key) ts.toNat v) } := by
  refine records_eq (fun k => lock_congr ?_) (fun k => writes_congr fun t => ?_) fun k => ?_
  · rw [h, if_neg (lockKey_ne_dataKey k key ts)]
  · rw [h, if_neg (writeKey_ne_dataKey k key t ts)]
  · show _ = update (records db).data key _ k
    rw [update_apply]
    by_cases hk : k = key
    · subst hk
      rw [if_pos rfl]
      funext t
      rw [update_apply]
      by_cases ht : t = ts.toNat
      · rw [if_pos ht, ht, data_eq, h, if_pos rfl]
      · rw [if_neg ht]
        show (if t < 2 ^ 64 then _ else none) = if t < 2 ^ 64 then _ else none
        by_cases hlt : t < 2 ^ 64
        · rw [if_pos hlt, if_pos hlt, h, if_neg fun heq => ht ?_]
          rw [← (dataKey_inj heq).2, UInt64.toNat_ofNat_of_lt' hlt]
        · rw [if_neg hlt, if_neg hlt]
    · rw [if_neg hk]
      refine data_congr fun t => ?_
      rw [h, if_neg fun heq => hk (dataKey_inj heq).1]

theorem records_putData (db : DB) (key : Bytes) (ts : UInt64) (value : Bytes) :
    records (db.insert (dataKey key ts) value) =
      (records db).apply (.putData key ts.toNat value) :=
  records_data (changed_insert db (dataKey key ts) value)

theorem records_deleteData (db : DB) (key : Bytes) (ts : UInt64) :
    records (db.erase (dataKey key ts)) = (records db).apply (.deleteData key ts.toNat) :=
  records_data (changed_erase db (dataKey key ts))

/-! ## Walks over the write column. -/

/-- From where a walk starts to a record of the key there are only records of the key. -/
theorem slotOf_isSome_of_between (h : Readable db) {e f : Bytes × Bytes} (he : e ∈ db.entries)
    (hlow : writeKey key ts ≤ e.1) (hhigh : e.1 < f.1) (hf : (slotOf key f).isSome) :
    (slotOf key e).isSome := by
  obtain ⟨w, hw⟩ := isSome_iff_exists.mp hf
  obtain ⟨t, _, hkey, _, _⟩ := slotOf_eq_some hw
  rw [hkey] at hhigh
  -- the key has the front of the column, so it is a write key of the same user key
  obtain ⟨z, hz⟩ := append_of_between (p := kWritePrefix ++ escapeKey key) hlow hhigh
  have hget := mem_entries.mp he
  have htake : e.1.take 2 = kWritePrefix := by
    rw [hz, append_assoc]
    rfl
  obtain ⟨k, s, hk⟩ := h.write hget htake
  have hsame : k = key := by
    have heq : kWritePrefix ++ (escapeKey k ++ invertedTs s) =
        kWritePrefix ++ (escapeKey key ++ z) := by
      rw [← append_assoc, ← append_assoc, ← hz]
      exact hk.symm
    exact (escapeKey_append_inj (append_cancel_left heq)).1
  subst hsame
  rw [hk] at hget
  obtain ⟨rec, hrec⟩ := h.writes hget
  rw [show e = (writeKey k s, e.2) from Prod.ext hk rfl, slotOf_writeKey, hrec]
  rfl

/-- The loop of the code is the loop over the records, if the callbacks correspond. -/
theorem walkWrites_eq {σ τ : Type} {conv : σ → τ} {fn : σ → UInt64 → WriteRecord → σ × Bool}
    {fn' : τ → Nat → Txn.WriteRecord → τ × Bool}
    (hfn : ∀ s t rec, fn' (conv s) t.toNat (recOf rec) = (conv (fn s t rec).1, (fn s t rec).2))
    {es : List (Bytes × Bytes)}
    (hread : ∀ e ∈ es, ∀ t, e.1 = writeKey key t → ∃ rec, decodeWrite e.2 = some rec)
    (hblock : es.Pairwise fun e f => (slotOf key f).isSome → (slotOf key e).isSome) (s : σ) :
    ∃ r, walkWrites key fn es s = .ok r ∧
      forEachWrite fn' (conv s) (es.filterMap (slotOf key)) = conv r := by
  induction es generalizing s with
  | nil => exact ⟨s, rfl, rfl⟩
  | cons e es ih =>
    obtain ⟨hhead, htail⟩ := pairwise_cons.mp hblock
    unfold walkWrites
    -- where the walk stops, nothing of the key follows
    have hstop : slotOf key e = none → (e :: es).filterMap (slotOf key) = [] := by
      intro hnone
      rw [List.filterMap_eq_nil_iff]
      intro f hf
      rcases mem_cons.mp hf with rfl | hf
      · exact hnone
      · have hnot := fun hsome => hhead f hf hsome
        rw [hnone] at hnot
        exact Option.not_isSome_iff_eq_none.mp fun hsome => by simpa using hnot hsome
    cases hparse : parseWriteKey e.1 with
    | none =>
      refine ⟨s, rfl, ?_⟩
      rw [hstop (by unfold slotOf; rw [hparse])]
      rfl
    | some p =>
      by_cases hkey : p.1 = key
      · obtain ⟨rec, hrec⟩ := hread e mem_cons_self p.2
          (hkey ▸ writeKey_of_parseWriteKey hparse)
        have hslot : slotOf key e = some (p.2.toNat, recOf rec) := by
          unfold slotOf
          rw [hparse]
          simp only [hkey, hrec]
          rfl
        simp only [hkey, hrec, ne_eq, not_true_eq_false, if_false]
        rw [List.filterMap_cons_some hslot, forEachWrite, hfn]
        dsimp only
        split
        · exact ih (fun f hf => hread f (mem_cons_of_mem e hf)) htail _
        · exact ⟨_, rfl, rfl⟩
      · refine ⟨s, if_pos hkey, ?_⟩
        rw [hstop (by unfold slotOf; rw [hparse]; exact if_neg hkey)]
        rfl

theorem filterMap_seek (db : DB) (key : Bytes) (ts : UInt64) :
    (db.seek (writeKey key ts)).filterMap (slotOf key) =
      ((records db).writes key).filter fun w => w.1 ≤ ts.toNat := by
  have hsorted : ((db.seek (writeKey key ts)).filterMap (slotOf key)).Pairwise
      fun a b => b.1 < a.1 := slots_sorted (sorted_seek db _)
  refine slots_ext hsorted ((writes_sorted db key).filter _) fun w => ?_
  rw [seek_eq_filter, mem_filterMap, mem_filter]
  -- timestamps are inverted in the keys
  have hplace : ∀ t, writeKey key ts ≤ writeKey key t ↔ t ≤ ts := by
    intro t
    have hlt : writeKey key t < writeKey key ts ↔ ts < t :=
      (stamped_lt_iff kWritePrefix key key t ts).trans (by simp)
    rw [← not_lt, hlt]
    exact UInt64.not_lt
  constructor
  · rintro ⟨e, he, hslot⟩
    obtain ⟨hmem, hle⟩ := mem_filter.mp he
    refine ⟨mem_filterMap.mpr ⟨e, hmem, hslot⟩, ?_⟩
    obtain ⟨t, rec, hkey, _, rfl⟩ := slotOf_eq_some hslot
    rw [hkey] at hle
    exact decide_eq_true (UInt64.le_iff_toNat_le.mp ((hplace t).mp (of_decide_eq_true hle)))
  · rintro ⟨hw, hle⟩
    obtain ⟨e, hmem, hslot⟩ := mem_filterMap.mp hw
    refine ⟨e, mem_filter.mpr ⟨hmem, ?_⟩, hslot⟩
    obtain ⟨t, rec, hkey, _, rfl⟩ := slotOf_eq_some hslot
    rw [hkey]
    exact decide_eq_true ((hplace t).mpr (UInt64.le_iff_toNat_le.mpr (of_decide_eq_true hle)))

theorem forEachWriteAtOrBelow_eq (h : Readable db) (key : Bytes) (ts : UInt64) {σ τ : Type}
    (conv : σ → τ) {fn : σ → UInt64 → WriteRecord → σ × Bool}
    {fn' : τ → Nat → Txn.WriteRecord → τ × Bool}
    (hfn : ∀ s t rec, fn' (conv s) t.toNat (recOf rec) = (conv (fn s t rec).1, (fn s t rec).2))
    (s : σ) : ∃ r, forEachWriteAtOrBelow db key ts fn s = .ok r ∧
      forEachWrite fn' (conv s) (((records db).writes key).filter fun w => w.1 ≤ ts.toNat) =
        conv r := by
  have hseek : ∀ e ∈ db.seek (writeKey key ts), e ∈ db.entries ∧ writeKey key ts ≤ e.1 := by
    intro e he
    rw [seek_eq_filter] at he
    exact ⟨(mem_filter.mp he).1, of_decide_eq_true (mem_filter.mp he).2⟩
  rw [← filterMap_seek]
  refine walkWrites_eq hfn (fun e he t hkey => ?_) ?_ s
  · have hget := mem_entries.mp (hseek e he).1
    rw [hkey] at hget
    exact h.writes hget
  · refine (sorted_seek db _).imp_of_mem fun {e f} he _ hlt hf => ?_
    exact slotOf_isSome_of_between h (hseek e he).1 (hseek e he).2 hlt hf

/-! ## The three scans. -/

/-- What a scan found, in numbers. -/
def found (r : UInt64 × Bool) : Nat × Bool := (r.1.toNat, r.2)

theorem filter_writes_max (db : DB) (key : Bytes) :
    ((records db).writes key).filter (fun w => w.1 ≤ (UInt64.ofNat (2 ^ 64 - 1)).toNat) =
      (records db).writes key := by
  apply filter_eq_self.mpr
  intro w hw
  obtain ⟨t, _, _, _, _, rfl⟩ := mem_writes.mp hw
  have hlt := t.toNat_lt
  have hmax : (UInt64.ofNat (2 ^ 64 - 1)).toNat = 2 ^ 64 - 1 := by decide
  exact decide_eq_true (by dsimp only; omega)

theorem kindOf_rollback (kind : UInt8) : kindOf kind = .rollback ↔ kind = kWriteRollback := by
  unfold kindOf
  split_ifs with h₁ h₂ <;> simp [h₁]

theorem conflictScan_eq (h : Readable db) (key : Bytes) (startTs : UInt64) :
    ∃ r, conflictScan db key startTs = .ok r ∧
      Txn.conflictScan startTs.toNat ((records db).writes key) = found r := by
  rw [← filter_writes_max]
  refine forEachWriteAtOrBelow_eq h key _ found (fun s t rec => ?_) (0, false)
  by_cases hkind : rec.kind = kWriteRollback
  · have hsame : rec.startTs.toNat = startTs.toNat ↔ rec.startTs = startTs := UInt64.toNat_inj
    simp [found, recOf, kindOf_rollback, hkind, hsame, UInt64.lt_iff_toNat_lt]
  · have hmax : max s.1.toNat t.toNat = (max s.1 t).toNat := by
      show _ = (if s.1 ≤ t then t else s.1).toNat
      by_cases hst : s.1 ≤ t
      · rw [if_pos hst, max_eq_right (UInt64.le_iff_toNat_le.mp hst)]
      · have hts := UInt64.lt_iff_toNat_lt.mp (UInt64.not_le.mp hst)
        rw [if_neg hst, max_eq_left hts.le]
    simp [found, recOf, kindOf_rollback, hkind, hmax]

theorem findTxnOutcome_eq (h : Readable db) (key : Bytes) (startTs : UInt64) :
    ∃ r, findTxnOutcome db key startTs = .ok r ∧
      Txn.findTxnOutcome startTs.toNat ((records db).writes key) = found r := by
  rw [← filter_writes_max]
  refine forEachWriteAtOrBelow_eq h key _ found (fun s t rec => ?_) (0, false)
  have hsame : rec.startTs.toNat = startTs.toNat ↔ rec.startTs = startTs := UInt64.toNat_inj
  by_cases hs : rec.startTs = startTs
  · by_cases hkind : rec.kind = kWriteRollback <;>
      simp [found, recOf, kindOf_rollback, hkind, hs]
  · simp [found, recOf, hsame, hs, UInt64.lt_iff_toNat_lt]

theorem dropWhile_slots {ws : List (Nat × Txn.WriteRecord)}
    (hsorted : ws.Pairwise fun a b => b.1 < a.1) (n : Nat) :
    ws.dropWhile (fun w => n < w.1) = ws.filter fun w => w.1 ≤ n := by
  induction ws with
  | nil => rfl
  | cons w ws ih =>
    obtain ⟨hhead, htail⟩ := pairwise_cons.mp hsorted
    by_cases hlt : n < w.1
    · rw [List.dropWhile_cons_of_pos (by simpa using hlt),
        List.filter_cons_of_neg (by simpa using hlt), ih htail]
    · rw [dropWhile_cons_of_neg (by simpa using hlt)]
      refine (filter_eq_self.mpr fun v hv => ?_).symm
      rcases mem_cons.mp hv with rfl | hv
      · exact decide_eq_true (Nat.not_lt.mp hlt)
      · exact decide_eq_true (by have := hhead v hv; omega)

theorem versionScan_eq (h : Readable db) (key : Bytes) (ts : UInt64) :
    ∃ r, versionScan db key ts = .ok r ∧
      Txn.versionScan (((records db).writes key).dropWhile fun w => ts.toNat < w.1) = found r := by
  rw [dropWhile_slots (writes_sorted db key)]
  refine forEachWriteAtOrBelow_eq h key _ found (fun s t rec => ?_) (0, false)
  unfold recOf kindOf
  dsimp only
  split_ifs <;> rfl

/-! ## Commands and reads. -/

theorem getLock_records (h : Readable db) (key : Bytes) :
    ∃ lock, getLock db key = .ok lock ∧ (records db).lock key = lock.map lockOf := by
  rw [lock_eq]
  unfold getLock
  cases hget : db.get? (lockKey key) with
  | none => exact ⟨none, rfl, rfl⟩
  | some raw =>
    obtain ⟨lock, hlock⟩ := h.locks hget
    exact ⟨some lock, by simp [hlock]⟩

/-- Same status, and corresponding states. -/
def Refines (db : DB) (r : Status × DB) (r' : Status × List DbWrite) : Prop :=
  r.1 = r'.1 ∧ records r.2 = r'.2.foldl Store.apply (records db)

theorem lock_filter (lock : Option LockRecord) (startTs : UInt64) :
    (lock.map lockOf).filter (fun l => l.startTs = startTs.toNat) =
      (lock.filter fun l => l.startTs = startTs).map lockOf := by
  cases lock with
  | none => rfl
  | some l =>
    have hsame : l.startTs.toNat = startTs.toNat ↔ l.startTs = startTs := UInt64.toNat_inj
    by_cases hl : l.startTs = startTs <;> simp [filter_some, lockOf, hsame, hl]

theorem applyPrewrite_refines (h : Readable db) (key value : Bytes) {op : UInt8}
    (hop : op = 1 ∨ op = 2) (startTs : UInt64) {primary : Bytes}
    (hprimary : primary.length < 2 ^ 32) (wallMs : UInt64) :
    Refines db (applyPrewrite db key value op startTs primary wallMs)
      ((records db).applyPrewrite key value (opOf op) startTs.toNat primary wallMs.toNat) := by
  obtain ⟨scan, hscan, hscan'⟩ := conflictScan_eq h key startTs
  obtain ⟨lock, hlock, hlock'⟩ := getLock_records h key
  have hle : startTs.toNat ≤ scan.1.toNat ↔ startTs ≤ scan.1 := UInt64.le_iff_toNat_le.symm
  unfold applyPrewrite Store.applyPrewrite
  rw [hscan, hscan', hlock, hlock']
  simp only [found, hle]
  split
  · exact ⟨rfl, rfl⟩
  · split
    · exact ⟨rfl, rfl⟩
    · cases lock with
      | some existing =>
        have hsame : (lockOf existing).startTs = startTs.toNat ↔ existing.startTs = startTs :=
          UInt64.toNat_inj
        simp only [map_some, hsame]
        split <;> exact ⟨rfl, rfl⟩
      | none =>
        have hput : records (db.insert _ (encodeLock ⟨startTs, op, wallMs, primary⟩)) = _ :=
          records_putLock db key hprimary
        refine ⟨rfl, ?_⟩
        -- a put has its data behind the lock
        rcases hop with rfl | rfl
        · show records ((db.insert _ _).insert _ _) = _
          rw [records_putData, hput]
          rfl
        · exact hput

theorem applyCommit_refines (h : Readable db) (key : Bytes) (startTs commitTs : UInt64) :
    Refines db (applyCommit db key startTs commitTs)
      ((records db).applyCommit key startTs.toNat commitTs.toNat) := by
  obtain ⟨lock, hlock, hlock'⟩ := getLock_records h key
  unfold applyCommit Store.applyCommit
  rw [hlock, hlock', lock_filter]
  dsimp only
  cases lock.filter fun l => decide (l.startTs = startTs) with
  | none =>
    obtain ⟨r, hscan, hscan'⟩ := findTxnOutcome_eq h key startTs
    have hzero : r.1.toNat ≠ 0 ↔ r.1 ≠ 0 := not_congr (UInt64.toNat_inj (b := 0))
    rw [hscan]
    simp only [Option.map_none, hscan', found, hzero]
    split
    · exact ⟨rfl, rfl⟩
    · split <;> exact ⟨rfl, rfl⟩
  | some l =>
    have hkind : 1 ≤ (if l.op = 2 then kWriteDelete else kWritePut) ∧
        (if l.op = 2 then kWriteDelete else kWritePut) ≤ 3 := by
      split_ifs <;> decide
    have hsame : kindOf (if l.op = 2 then kWriteDelete else kWritePut) =
        if (lockOf l).op = .delete then .delete else .put := by
      unfold lockOf opOf
      by_cases hl : l.op = 2
      · simp only [if_pos hl]
        rfl
      · simp only [if_neg hl]
        rfl
    refine ⟨rfl, ?_⟩
    show records ((db.insert _ _).erase _) = _
    rw [records_deleteLock, records_putWrite hkind.1 hkind.2]
    unfold recOf
    rw [hsame]
    rfl

theorem applyRollback_refines (h : Readable db) (key : Bytes) (startTs : UInt64) :
    Refines db (applyRollback db key startTs) ((records db).applyRollback key startTs.toNat) := by
  obtain ⟨lock, hlock, hlock'⟩ := getLock_records h key
  obtain ⟨⟨existing, rolledBack⟩, hscan, hscan'⟩ := findTxnOutcome_eq h key startTs
  have hzero : existing.toNat ≠ 0 ↔ existing ≠ 0 := not_congr (UInt64.toNat_inj (b := 0))
  unfold applyRollback Store.applyRollback unlock
  rw [hlock, hlock', hscan, hscan', lock_filter]
  simp only [found, hzero]
  have hput : ∀ db : DB, records (db.insert (writeKey key startTs)
      (encodeWrite ⟨kWriteRollback, startTs⟩)) =
        (records db).apply (.putWrite key startTs.toNat ⟨.rollback, startTs.toNat⟩) :=
    fun db => records_putWrite (show 1 ≤ 3 by decide) (show 3 ≤ 3 by decide)
  -- a lock goes with its data, and a marker comes if there is none
  split
  · exact ⟨rfl, rfl⟩
  · cases lock.filter fun l => decide (l.startTs = startTs) with
    | none =>
      cases rolledBack with
      | true => exact ⟨rfl, rfl⟩
      | false => exact ⟨rfl, hput db⟩
    | some l =>
      have hunlock : records ((db.erase (lockKey key)).erase (dataKey key startTs)) =
          ((records db).apply (.deleteLock key)).apply (.deleteData key startTs.toNat) := by
        rw [records_deleteData, records_deleteLock]
      cases rolledBack with
      | true => exact ⟨rfl, hunlock⟩
      | false =>
        refine ⟨rfl, (hput _).trans ?_⟩
        rw [hunlock]
        rfl

/-! ## Runs of commands. -/

def wopOf : WriteOp → UInt8
  | .put => 1
  | .delete => 2

/-- The command as it is proposed. -/
def proposal : Command → TxnCommand
  | .prewrite key value op startTs primary wallMs =>
      txnPrewrite key value (wopOf op) (.ofNat startTs) primary (.ofNat wallMs)
  | .commit key startTs commitTs => txnCommit key (.ofNat startTs) (.ofNat commitTs)
  | .rollback key startTs => txnRollback key (.ofNat startTs)

/-- The numbers have 64 bits, and lengths fit their prefixes. -/
def Fits : Command → Prop
  | .prewrite _ value _ startTs primary wallMs => startTs < 2 ^ 64 ∧ wallMs < 2 ^ 64 ∧
      primary.length < 2 ^ 32 ∧ value.length < 2 ^ 32
  | .commit _ startTs commitTs => startTs < 2 ^ 64 ∧ commitTs < 2 ^ 64
  | .rollback _ startTs => startTs < 2 ^ 64

theorem u64_last (ts : UInt64) :
    (⟨putFixed64 ts.toNat, false⟩ : Decoder).u64 = (ts.toNat, ⟨[], false⟩) := by
  have hput := Decoder.u64_put ts.toNat_lt []
  rw [append_nil] at hput
  exact hput

theorem applyTxn_refines (h : Readable db) {cmd : Command} (hfits : Fits cmd) :
    Refines db (applyTxn db (proposal cmd)) (cmd.apply (records db)) := by
  have hnat : ∀ {n : Nat}, n < 2 ^ 64 → (UInt64.ofNat n).toNat = n := UInt64.toNat_ofNat_of_lt'
  cases cmd with
  | prewrite key value op startTs primary wallMs =>
    obtain ⟨hstart, hwall, hprimary, hvalue⟩ := hfits
    have hvalue := Decoder.lengthPrefixed_put hvalue []
    rw [append_nil] at hvalue
    have happly : ∀ wop : UInt8, wop = 1 ∨ wop = 2 → applyTxn db (txnPrewrite key value wop
        (.ofNat startTs) primary (.ofNat wallMs)) = applyPrewrite db key value wop
          (.ofNat startTs) primary (.ofNat wallMs) := by
      -- the payload is read back, field by field
      intro wop hwop
      unfold applyTxn txnPrewrite
      simp only [append_assoc, Decoder.u8_put wop.toNat_lt, Decoder.u64_put (UInt64.toNat_lt _),
        Decoder.lengthPrefixed_put hprimary, hvalue, UInt64.ofNat_toNat, UInt8.ofNat_toNat]
      rcases hwop with rfl | rfl <;> rfl
    have hwop : (wopOf op = 1 ∨ wopOf op = 2) ∧ opOf (wopOf op) = op := by cases op <;> decide
    have hrefines := applyPrewrite_refines h key value hwop.1 (.ofNat startTs) hprimary
      (.ofNat wallMs)
    rw [hnat hstart, hnat hwall, hwop.2, ← happly _ hwop.1] at hrefines
    exact hrefines
  | commit key startTs commitTs =>
    have hrefines := applyCommit_refines h key (.ofNat startTs) (.ofNat commitTs)
    rw [hnat hfits.1, hnat hfits.2] at hrefines
    unfold proposal applyTxn txnCommit
    simp only [Decoder.u64_put (UInt64.toNat_lt _), u64_last, UInt64.ofNat_toNat]
    exact hrefines
  | rollback key startTs =>
    have hrefines := applyRollback_refines h key (.ofNat startTs)
    rw [hnat hfits] at hrefines
    unfold proposal applyTxn txnRollback
    simp only [u64_last, UInt64.ofNat_toNat]
    exact hrefines

def readOf : Except Status TxnReadResult → Status × Txn.TxnReadResult
  | .ok r => ({}, ⟨r.found, r.value, r.locked.map lockOf⟩)
  | .error s => (s, {})

theorem txnGet_records (h : Readable db) (key : Bytes) (ts : UInt64) :
    readOf (txnGet db key ts) = (records db).txnGet key ts.toNat := by
  obtain ⟨lock, hlock, hlock'⟩ := getLock_records h key
  obtain ⟨r, hscan, hscan'⟩ := versionScan_eq h key ts
  have hfilter : (lock.map lockOf).filter (fun l => l.startTs ≤ ts.toNat) =
      (lock.filter fun l => l.startTs ≤ ts).map lockOf := by
    cases lock with
    | none => rfl
    | some l =>
      have hle : l.startTs.toNat ≤ ts.toNat ↔ l.startTs ≤ ts := UInt64.le_iff_toNat_le.symm
      by_cases hl : l.startTs ≤ ts <;> simp [filter_some, lockOf, hle, hl]
  have hzero : r.1.toNat = 0 ↔ r.1 = 0 := UInt64.toNat_inj (b := 0)
  unfold txnGet Store.txnGet
  rw [hlock, hlock', hscan, hscan', hfilter]
  dsimp only
  cases lock.filter fun l => decide (l.startTs ≤ ts) with
  | some l => rfl
  | none =>
    simp only [Option.map_none, found, hzero, data_eq]
    split
    · rfl
    · cases db.get? (dataKey key r.1) with
      | none => rfl
      | some value => rfl

theorem applyTxns_refines (h : Readable db) {cmds : List Command} (hfits : ∀ cmd ∈ cmds, Fits cmd) :
    Readable (applyTxns db (cmds.map proposal)) ∧
      records (applyTxns db (cmds.map proposal)) = cmds.foldl Store.exec (records db) := by
  refine ⟨h.applyTxns _, ?_⟩
  induction cmds generalizing db with
  | nil => rfl
  | cons cmd cmds ih =>
    have hstep := (applyTxn_refines h (hfits cmd mem_cons_self)).2
    have hrest := ih (h.applyTxn (proposal cmd)) fun c hc => hfits c (mem_cons_of_mem cmd hc)
    rw [hstep] at hrest
    exact hrest

theorem records_untouched (h : Untouched db) : records db = {} := by
  have hnone : ∀ {key : Bytes}, key.head? = some 33 → db.get? key = none := by
    intro key hkey
    cases hget : db.get? key with
    | none => rfl
    | some v => exact absurd hkey (h hget)
  refine records_eq (fun k => ?_) (fun k => ?_) fun k => ?_
  · rw [lock_eq, hnone rfl]
    rfl
  · refine slots_ext (writes_sorted db k) .nil fun w => ?_
    rw [mem_writes]
    refine iff_of_false ?_ not_mem_nil
    rintro ⟨ts, v, _, hget, _⟩
    rw [hnone rfl] at hget
    cases hget
  · funext t
    show (if t < 2 ^ 64 then db.get? _ else none) = none
    rw [hnone rfl, ite_self]

/-- **The stored bytes refine the records.**  Whatever commands have been applied to an untouched
database, its bytes hold the records that the commands leave, the next command has the status that
the records give it, and every read has the answer of the records. -/
theorem stored_bytes_refine_records {db₀ : DB} (hbase : Untouched db₀) (cmds : List Command)
    (hfits : ∀ cmd ∈ cmds, Fits cmd) :
    let db := applyTxns db₀ (cmds.map proposal)
    let st := cmds.foldl Store.exec {}
    records db = st ∧
      (∀ cmd, Fits cmd → (applyTxn db (proposal cmd)).1 = (cmd.apply st).1) ∧
      ∀ key ts, readOf (txnGet db key ts) = st.txnGet key ts.toNat := by
  intro db st
  obtain ⟨hreadable, hrecords⟩ := applyTxns_refines hbase.readable hfits
  rw [records_untouched hbase] at hrecords
  have hst : records db = st := hrecords
  refine ⟨hst, fun cmd hcmd => ?_, fun key ts => ?_⟩
  · rw [← hst]
    exact (applyTxn_refines hreadable hcmd).1
  · rw [← hst]
    exact txnGet_records hreadable key ts

/-- A transaction commits a value, and a later one deletes it. -/
def putThenDelete : List Command :=
  [.prewrite [1] [7] .put 5 [1] 0, .commit [1] 5 6, .prewrite [1] [] .delete 8 [1] 0,
    .commit [1] 8 9]

theorem stored_bytes_refine_records_putThenDelete :
    readOf (txnGet (applyTxns .empty (putThenDelete.map proposal)) [1] 7) =
        ({}, { found := true, value := [7] }) ∧
      readOf (txnGet (applyTxns .empty (putThenDelete.map proposal)) [1] 9) = ({}, {}) := by
  have hempty : Untouched .empty := nofun
  have hrefines := (stored_bytes_refine_records hempty putThenDelete
    (by simp [putThenDelete, Fits])).2.2 [1]
  exact ⟨(hrefines 7).trans rfl, (hrefines 9).trans rfl⟩

/-! ## What the protocol relies on, on the stored bytes. -/

theorem found_inj {r r' : UInt64 × Bool} (h : found r = found r') : r = r' := by
  unfold found at h
  exact Prod.ext (UInt64.toNat_inj.mp (congrArg Prod.fst h)) (congrArg (fun x => x.2) h)

theorem findTxnOutcome_lasts {pre post : List Command} (hd : Disciplined (pre ++ post)) (key : Key)
    (startTs : Nat) : Txn.findTxnOutcome startTs ((Store.after pre).writes key) = (0, false) ∨
      Txn.findTxnOutcome startTs ((Store.after (pre ++ post)).writes key) =
        Txn.findTxnOutcome startTs ((Store.after pre).writes key) := by
  obtain ⟨hok, _⟩ := hd.after_ok pre fun _ h => mem_append_left _ h
  obtain ⟨hok', _⟩ := hd.after_ok (pre ++ post) fun _ h => h
  by_cases hw : ∃ w ∈ (Store.after pre).writes key, w.2.startTs = startTs
  · -- its one record decides, before and after
    obtain ⟨w, hw, rfl⟩ := hw
    have hlast : w ∈ (Store.after (pre ++ post)).writes key := by
      rw [Store.after_append]
      exact (foldl_exec_ok hd.owned hok
        fun cmd h => scheduled_of_mem (mem_append_right _ h)).2 key w hw
    have hle := ((hok key).slot w hw).start_le hd.owned
    exact .inr ((findTxnOutcome_of_mem (hok' key).sorted (hok' key).one hlast hle).trans
      (findTxnOutcome_of_mem (hok key).sorted (hok key).one hw hle).symm)
  · exact .inl (findTxnOutcome_of_not_mem fun w hmem hs => hw ⟨w, hmem, hs⟩)

/-- **The stored transactions are safe.**  Commands with the timestamps of a protocol come in any
order and any number of times.  No read of the bytes fails; an outcome that `FindTxnOutcome` has
once reported stays; and of two transactions with stored commits on a key, one committed before the
other started. -/
theorem stored_transactions_safe {db₀ : DB} (hbase : Untouched db₀) (pre post : List Command)
    (hd : Disciplined (pre ++ post)) (hfits : ∀ cmd ∈ pre ++ post, Fits cmd) (key : Bytes) :
    let db := applyTxns db₀ (pre.map proposal)
    let db' := applyTxns db₀ ((pre ++ post).map proposal)
    (∀ ts, (readOf (txnGet db key ts)).1.isOk = true) ∧
      (∀ startTs, ∃ outcome later, findTxnOutcome db key startTs = .ok outcome ∧
        findTxnOutcome db' key startTs = .ok later ∧ (outcome = (0, false) ∨ later = outcome)) ∧
      ∀ c c' v v' rec rec', db.get? (writeKey key c) = some v → decodeWrite v = some rec →
        db.get? (writeKey key c') = some v' → decodeWrite v' = some rec' →
        rec.kind ≠ kWriteRollback → rec'.kind ≠ kWriteRollback → rec.startTs ≠ rec'.startTs →
        c < rec'.startTs ∨ c' < rec.startTs := by
  intro db db'
  have hpre : ∀ cmd ∈ pre, cmd ∈ pre ++ post := fun _ h => mem_append_left _ h
  obtain ⟨hread, hst⟩ := applyTxns_refines hbase.readable fun cmd h => hfits cmd (hpre cmd h)
  obtain ⟨hread', hst'⟩ := applyTxns_refines hbase.readable hfits
  rw [records_untouched hbase] at hst hst'
  have hsafe := (hd.after_ok pre hpre).2
  refine ⟨fun ts => ?_, fun startTs => ?_, ?_⟩
  · rw [txnGet_records hread, hst]
    exact hsafe.txnGet_ok key ts.toNat
  · obtain ⟨outcome, hout, hfound⟩ := findTxnOutcome_eq hread key startTs
    obtain ⟨later, hlater, hfound'⟩ := findTxnOutcome_eq hread' key startTs
    rw [hst] at hfound
    rw [hst'] at hfound'
    refine ⟨outcome, later, hout, hlater, ?_⟩
    rcases findTxnOutcome_lasts hd key startTs.toNat with hnone | hsame
    · exact .inl (found_inj (hfound.symm.trans hnone))
    · exact .inr (found_inj (hfound'.symm.trans (hsame.trans hfound)))
  · intro c c' v v' rec rec' hget hdec hget' hdec' hkind hkind' hne
    have hmem : (c.toNat, recOf rec) ∈ (records db).writes key :=
      mem_writes.mpr ⟨c, v, rec, hget, hdec, rfl⟩
    have hmem' : (c'.toNat, recOf rec') ∈ (records db).writes key :=
      mem_writes.mpr ⟨c', v', rec', hget', hdec', rfl⟩
    rw [hst] at hmem hmem'
    rw [UInt64.lt_iff_toNat_lt, UInt64.lt_iff_toNat_lt]
    exact (hsafe key).disjoint _ hmem _ hmem' (mt (kindOf_rollback _).mp hkind)
      (mt (kindOf_rollback _).mp hkind') fun heq => hne (UInt64.toNat_inj.mp heq)

/-- The first of `takingTurns` stays committed, whatever follows. -/
theorem stored_transactions_safe_takingTurns :
    findTxnOutcome (applyTxns .empty (takingTurns.map proposal)) [7] 1 = .ok (2, false) := by
  have hempty : Untouched .empty := nofun
  obtain ⟨outcome, later, hout, hlater, heq⟩ := (stored_transactions_safe hempty
    (takingTurns.take 3) (takingTurns.drop 3) disciplined_takingTurns
    (by simp [takingTurns, Fits]) [7]).2.1 1
  obtain rfl : (2, false) = outcome := Except.ok.inj (Eq.trans rfl hout)
  rw [heq.resolve_left (by decide)] at hlater
  exact hlater

end Flotilla.Txn.Codec
