/-
  Txn.Scans — `TxnScan` against `TxnGet`.

  The scan walks the lock column for blocking locks and then the write column,
  one `TxnGet` for each distinct user key.  The walk is taken apart here: what it
  visits (`visits_eq`), the distinct keys of that in order (`newKeys`), and the
  reads of a list of keys under a limit (`readKeys`).
-/
import Flotilla.Txn.Ops

namespace Flotilla.Txn.Codec

variable {db : DB}

/-! ## The lock pre-pass. -/

variable {k endKey v start : Bytes} {lock : LockRecord} {ts : UInt64} {ks : List Bytes}
  {limit : Nat} {rows : List (Bytes × Bytes)}

theorem getLock_eq_some :
    getLock db k = .ok (some lock) ↔ ∃ v, db.get? (lockKey k) = some v ∧ decodeLock v = some lock := by
  unfold getLock
  cases db.get? (lockKey k) with
  | none => simp
  | some raw => cases hraw : decodeLock raw <;> simp [hraw]

theorem Readable.getLock_ok (h : Readable db) (k : Bytes) : ∃ lock, getLock db k = .ok lock := by
  unfold getLock
  cases hget : db.get? (lockKey k) with
  | none => exact ⟨none, rfl⟩
  | some raw =>
    obtain ⟨lock, hlock⟩ := h.locks hget
    exact ⟨some lock, by simp [hlock]⟩

/-- The lock of a pair of the lock column, if it blocks a read at `ts`. -/
def blocking (ts : UInt64) (e : Bytes × Bytes) : Option (LockRecord × Bytes) :=
  (columnKey kLockPrefix e.1).bind fun k =>
    ((decodeLock e.2).filter (fun lock => lock.startTs ≤ ts)).map (fun lock => (lock, k))

theorem lockPass_eq {es : List (Bytes × Bytes)}
    (h : ∀ e ∈ es.takeWhile (stays kLockPrefix endKey), ∃ lock, decodeLock e.2 = some lock) :
    lockPass endKey ts es =
      .ok ((es.takeWhile (stays kLockPrefix endKey)).findSome? (blocking ts)) := by
  induction es with
  | nil => rfl
  | cons e es ih =>
    unfold lockPass
    by_cases htake : e.1.take 2 = kLockPrefix
    · rw [if_neg (not_not.mpr htake)]
      have hcol : columnKey kLockPrefix e.1 = (unescapeKey (e.1.drop 2)).map Prod.fst := if_pos htake
      cases hkey : unescapeKey (e.1.drop 2) with
      | none =>
        rw [hkey] at hcol
        rw [takeWhile_cons_of_neg (by rw [stays_of_none hcol]; simp)]
        rfl
      | some r =>
        rw [hkey] at hcol
        have hcol : columnKey kLockPrefix e.1 = some r.1 := hcol
        cases hbeyond : beyond endKey r.1 with
        | true =>
          rw [takeWhile_cons_of_neg (by rw [stays_of_some hcol, hbeyond]; simp)]
          simp [hbeyond]
        | false =>
          have hpos : stays kLockPrefix endKey e = true := by
            rw [stays_of_some hcol, hbeyond]
            rfl
          rw [takeWhile_cons_of_pos hpos] at h ⊢
          obtain ⟨lock, hlock⟩ := h e mem_cons_self
          have hrest := ih fun a ha => h a (mem_cons_of_mem e ha)
          by_cases hts : lock.startTs ≤ ts
          · have hblock : blocking ts e = some (lock, r.1) := by simp [blocking, hcol, hlock, hts]
            simp [hbeyond, hlock, hts, hblock]
          · have hlate := UInt64.not_le.mp hts
            have hfree : blocking ts e = none := by simp [blocking, hcol, hlock, hlate]
            simp [hbeyond, hlock, hts, hfree, hrest]
    · have hcol : columnKey kLockPrefix e.1 = none := if_neg htake
      rw [if_pos htake, takeWhile_cons_of_neg (by rw [stays_of_none hcol]; simp)]
      rfl

theorem lockPass_column (h : Readable db) (start endKey : Bytes) (ts : UInt64) :
    lockPass endKey ts (db.seek (kLockPrefix ++ escapeBody start)) =
      .ok ((column db kLockPrefix start endKey).findSome? (blocking ts)) := by
  have hvisits := visits_eq h.lockColumn start endKey
  unfold visits at hvisits
  rw [lockPass_eq, hvisits]
  rw [hvisits]
  intro e he
  obtain ⟨k, hk, _, hget⟩ := (mem_lockColumn h.toFormed).mp he
  exact h.locks hget

theorem blocking_lockKey :
    blocking ts (lockKey k, v) =
      ((decodeLock v).filter (fun lock => lock.startTs ≤ ts)).map (fun lock => (lock, k)) := by
  have hcol : columnKey kLockPrefix (lockKey k) = some k := by
    have := columnKey_append (p := kLockPrefix) rfl k []
    rw [append_nil] at this
    exact this
  unfold blocking
  rw [hcol]
  rfl

theorem findSome?_blocking (h : Readable db) (hin : InRange start endKey k)
    (hlock : getLock db k = .ok (some lock)) (hts : lock.startTs ≤ ts)
    (hfirst : ∀ k' lock', InRange start endKey k' → k' < k → getLock db k' = .ok (some lock') →
      ¬ lock'.startTs ≤ ts) :
    (column db kLockPrefix start endKey).findSome? (blocking ts) = some (lock, k) := by
  obtain ⟨v, hget, hdec⟩ := getLock_eq_some.mp hlock
  have hmem : (lockKey k, v) ∈ column db kLockPrefix start endKey :=
    (mem_lockColumn h.toFormed).mpr ⟨k, rfl, hin, hget⟩
  obtain ⟨front, back, hsplit⟩ := append_of_mem hmem
  have hsorted := @sorted_column db kLockPrefix start endKey
  rw [hsplit] at hsorted
  rw [List.findSome?_eq_some_iff]
  refine ⟨front, (lockKey k, v), back, hsplit, ?_, fun e he => ?_⟩
  · rw [blocking_lockKey, hdec, filter_some, if_pos (decide_eq_true hts)]
    rfl
  · have hlt : e.1 < lockKey k := (pairwise_append.mp hsorted).2.2 e he _ mem_cons_self
    have hcol : e ∈ column db kLockPrefix start endKey := by
      rw [hsplit]
      exact mem_append_left _ he
    obtain ⟨k', hk', hin', hget'⟩ := (mem_lockColumn h.toFormed).mp hcol
    obtain ⟨lock', hdec'⟩ := h.locks hget'
    rw [hk', lockKey_lt_iff] at hlt
    have hnot := hfirst k' lock' hin' hlt (getLock_eq_some.mpr ⟨_, hget', hdec'⟩)
    rw [show e = (lockKey k', e.2) from Prod.ext hk' rfl, blocking_lockKey, hdec',
      filter_some, if_neg (by simpa using hnot)]
    rfl

theorem findSome?_free (h : Readable db)
    (hfree : ∀ k lock, InRange start endKey k → getLock db k = .ok (some lock) →
      ¬ lock.startTs ≤ ts) :
    (column db kLockPrefix start endKey).findSome? (blocking ts) = none := by
  rw [List.findSome?_eq_none_iff]
  intro e he
  obtain ⟨k, hk, hin, hget⟩ := (mem_lockColumn h.toFormed).mp he
  obtain ⟨lock, hdec⟩ := h.locks hget
  have hnot := hfree k lock hin (getLock_eq_some.mpr ⟨_, hget, hdec⟩)
  rw [show e = (lockKey k, e.2) from Prod.ext hk rfl, blocking_lockKey, hdec, filter_some,
    if_neg (by simpa using hnot)]
  rfl

/-! ## Distinct keys. -/

/-- The keys of a walk, each once: `last` is the key before. -/
def newKeys : Option Bytes → List Bytes → List Bytes
  | _, [] => []
  | last, k :: ks => if last = some k then newKeys last ks else k :: newKeys (some k) ks

theorem mem_newKeys {last : Option Bytes} (hsorted : ks.Pairwise (· ≤ ·))
    (hlast : ∀ l ∈ last, ∀ k ∈ ks, l ≤ k) (k : Bytes) :
    k ∈ newKeys last ks ↔ k ∈ ks ∧ last ≠ some k := by
  induction ks generalizing last with
  | nil => simp [newKeys]
  | cons a ks ih =>
    have htail := hsorted.tail
    have hhead : ∀ b ∈ ks, a ≤ b := fun b hb => rel_of_pairwise_cons hsorted hb
    unfold newKeys
    by_cases ha : last = some a
    · rw [if_pos ha, ih htail fun l hl b hb => hlast l hl b (mem_cons_of_mem a hb), mem_cons]
      constructor
      · exact fun hk => ⟨.inr hk.1, hk.2⟩
      · rintro ⟨hk | hk, hne⟩
        · exact absurd (hk ▸ ha) hne
        · exact ⟨hk, hne⟩
    · rw [if_neg ha, mem_cons, mem_cons, ih htail (by
        rintro l ⟨⟩ b hb
        exact hhead b hb)]
      constructor
      · rintro (hk | hk)
        · exact ⟨.inl hk, hk ▸ ha⟩
        · refine ⟨.inr hk.1, fun hl => ?_⟩
          -- `last ≤ a ≤ k`, so the key before would have to be `a`
          have hle : k ≤ a := hlast k hl a mem_cons_self
          exact hk.2 (congrArg some (le_antisymm (hhead k hk.1) hle))
      · rintro ⟨hk | hk, hne⟩
        · exact .inl hk
        · by_cases hka : k = a
          · exact .inl hka
          · exact .inr ⟨hk, fun heq => hka (Option.some.inj heq).symm⟩

theorem sorted_newKeys {last : Option Bytes} (hsorted : ks.Pairwise (· ≤ ·))
    (hlast : ∀ l ∈ last, ∀ k ∈ ks, l ≤ k) : (newKeys last ks).Pairwise (· < ·) := by
  induction ks generalizing last with
  | nil => exact .nil
  | cons a ks ih =>
    have hhead : ∀ b ∈ ks, a ≤ b := fun b hb => rel_of_pairwise_cons hsorted hb
    have hnext : ∀ l ∈ some a, ∀ b ∈ ks, l ≤ b := by
      rintro l ⟨⟩ b hb
      exact hhead b hb
    unfold newKeys
    by_cases ha : last = some a
    · rw [if_pos ha]
      exact ih hsorted.tail fun l hl b hb => hlast l hl b (mem_cons_of_mem a hb)
    · rw [if_neg ha]
      refine pairwise_cons.mpr ⟨fun b hb => ?_, ih hsorted.tail hnext⟩
      have hmem := (mem_newKeys hsorted.tail hnext b).mp hb
      exact lt_of_le_of_ne (hhead b hmem.1) fun heq => hmem.2 (congrArg some heq)

/-! ## Reading a list of keys. -/

/-- One `TxnGet` for each key, until there are `limit` rows. -/
def readKeys (db : DB) (ts : UInt64) (limit : Nat) :
    List Bytes → List (Bytes × Bytes) → Except Status (List (Bytes × Bytes))
  | [], rows => .ok rows
  | k :: ks, rows =>
      if limit ≤ rows.length then .ok rows
      else
        match txnGet db k ts with
        | .error s => .error s
        | .ok result =>
            readKeys db ts limit ks (if result.found then rows ++ [(k, result.value)] else rows)

/-- The row that `TxnGet` gives for a key. -/
def rowOf (db : DB) (ts : UInt64) (k : Bytes) : Option (Bytes × Bytes) :=
  match txnGet db k ts with
  | .ok result => if result.found then some (k, result.value) else none
  | .error _ => none

theorem readKeys_full (h : limit ≤ rows.length) (ks : List Bytes) :
    readKeys db ts limit ks rows = .ok rows := by
  cases ks with
  | nil => rfl
  | cons k ks =>
    unfold readKeys
    rw [if_pos h]

theorem readKeys_cons (hroom : rows.length < limit) (hok : ∀ s, txnGet db k ts ≠ .error s) :
    readKeys db ts limit (k :: ks) rows =
      readKeys db ts limit ks (rows ++ (rowOf db ts k).toList) := by
  conv_lhs => unfold readKeys
  rw [if_neg (Nat.not_le.mpr hroom)]
  unfold rowOf
  cases hget : txnGet db k ts with
  | error s => exact absurd hget (hok s)
  | ok result =>
    cases hfound : result.found with
    | true | false => simp [hfound]

theorem rowOf_key {row : Bytes × Bytes} (h : rowOf db ts k = some row) : row.1 = k := by
  unfold rowOf at h
  split at h
  · split at h
    · cases h
      rfl
    · cases h
  · cases h

theorem filter_rows_nil (h : ∀ k' ∈ ks, k ≤ k') :
    (ks.filterMap (rowOf db ts)).filter (fun row => row.1 < k) = [] := by
  rw [List.filter_eq_nil_iff]
  intro row hrow
  obtain ⟨k', hk', hkey⟩ := mem_filterMap.mp hrow
  have hle : ¬ row.1 < k := by
    rw [rowOf_key hkey]
    exact not_lt.mpr (h k' hk')
  simpa using hle

theorem filter_rows_cons {a : Bytes} (h : a < k) :
    ((a :: ks).filterMap (rowOf db ts)).filter (fun row => row.1 < k) =
      (rowOf db ts a).toList ++ (ks.filterMap (rowOf db ts)).filter (fun row => row.1 < k) := by
  cases hrow : rowOf db ts a with
  | none => rw [filterMap_cons_none hrow]; rfl
  | some row =>
    rw [List.filterMap_cons_some hrow, filter_cons_of_pos]
    · rfl
    · rw [rowOf_key hrow]
      exact decide_eq_true h

theorem readKeys_ok (hsorted : ks.Pairwise (· < ·)) (hroom : rows.length ≤ limit)
    (hok : ∀ k ∈ ks, ∀ s, txnGet db k ts = .error s →
      limit ≤ rows.length + ((ks.filterMap (rowOf db ts)).filter (fun row => row.1 < k)).length) :
    readKeys db ts limit ks rows =
      .ok (rows ++ (ks.filterMap (rowOf db ts)).take (limit - rows.length)) := by
  induction ks generalizing rows with
  | nil => simp [readKeys]
  | cons a ks ih =>
    have hhead : ∀ k ∈ ks, a < k := fun k hk => rel_of_pairwise_cons hsorted hk
    cases Nat.lt_or_ge rows.length limit with
    | inr hfull =>
      rw [readKeys_full hfull, Nat.sub_eq_zero_of_le hfull, take_zero, append_nil]
    | inl hless =>
      have hget : ∀ s, txnGet db a ts ≠ .error s := by
        intro s hs
        have hcount := hok a mem_cons_self s hs
        rw [filter_rows_nil (fun k' hk' => by
          cases hk' with
          | head => exact le_refl a
          | tail _ hk' => exact le_of_lt (hhead k' hk')), length_nil] at hcount
        omega
      rw [readKeys_cons hless hget]
      cases hrow : rowOf db ts a with
      | none =>
        rw [filterMap_cons_none hrow, toList_none, append_nil]
        refine ih hsorted.tail hroom fun k hk s hs => ?_
        have hcount := hok k (mem_cons_of_mem a hk) s hs
        rw [filter_rows_cons (hhead k hk), hrow] at hcount
        exact hcount
      | some row =>
        have hlen : (rows ++ [row]).length = rows.length + 1 := by simp
        rw [toList_some, ih hsorted.tail (by omega), hlen,
          List.filterMap_cons_some hrow, append_assoc,
          show limit - rows.length = limit - (rows.length + 1) + 1 by omega, take_succ_cons]
        · rfl
        · intro k hk s hs
          have hcount := hok k (mem_cons_of_mem a hk) s hs
          rw [filter_rows_cons (hhead k hk), hrow, toList_some, length_append] at hcount
          rw [hlen]
          simp only [length_singleton] at hcount
          omega

theorem readKeys_error {s : Status} (hsorted : ks.Pairwise (· < ·)) (hk : k ∈ ks)
    (hget : txnGet db k ts = .error s)
    (hfirst : ∀ k' ∈ ks, k' < k → ∀ s', txnGet db k' ts ≠ .error s')
    (hroom : rows.length + ((ks.filterMap (rowOf db ts)).filter (fun row => row.1 < k)).length
      < limit) :
    readKeys db ts limit ks rows = .error s := by
  induction ks generalizing rows with
  | nil => cases hk
  | cons a ks ih =>
    have hless : rows.length < limit := by omega
    cases hk with
    | head =>
      unfold readKeys
      rw [if_neg (Nat.not_le.mpr hless), hget]
    | tail _ hk =>
      have hlt : a < k := rel_of_pairwise_cons hsorted hk
      rw [readKeys_cons hless (hfirst a mem_cons_self hlt)]
      refine ih hsorted.tail hk (fun k' hk' => hfirst k' (mem_cons_of_mem a hk')) ?_
      rw [filter_rows_cons hlt, length_append] at hroom
      rw [length_append]
      omega

/-! ## The walk over the write column. -/

theorem parse_eq_columnKey (h : Formed db) {e : Bytes × Bytes} (he : e ∈ db.entries) :
    (parseWriteKey e.1).map Prod.fst = columnKey kWritePrefix e.1 := by
  by_cases htake : e.1.take 2 = kWritePrefix
  · obtain ⟨k, ts, hk⟩ := h.write (SortedMap.mem_entries.mp he) htake
    have hcol : columnKey kWritePrefix (writeKey k ts) = some k := columnKey_append rfl k (invertedTs ts)
    rw [hk, parseWriteKey_writeKey, hcol]
    rfl
  · unfold parseWriteKey columnKey
    rw [if_pos htake, if_neg htake]
    rfl

/-- The user keys that the walk meets, with repetitions. -/
def walkedKeys (endKey : Bytes) (es : List (Bytes × Bytes)) : List Bytes :=
  (es.takeWhile (stays kWritePrefix endKey)).filterMap (fun e => columnKey kWritePrefix e.1)

theorem walkKeys_eq (h : Formed db) {es : List (Bytes × Bytes)} (hes : ∀ e ∈ es, e ∈ db.entries)
    (hfree : ∀ k ∈ walkedKeys endKey es, ∀ r, txnGet db k ts = .ok r → r.locked = none)
    (last : Option Bytes) (rows : List (Bytes × Bytes)) :
    walkKeys db endKey ts limit es last rows =
      (readKeys db ts limit (newKeys last (walkedKeys endKey es)) rows).map
        (fun rows => { rows := rows }) := by
  induction es generalizing last rows with
  | nil => rfl
  | cons e es ih =>
    have htail := ih fun a ha => hes a (mem_cons_of_mem e ha)
    have hparse := parse_eq_columnKey h (hes e mem_cons_self)
    unfold walkKeys
    by_cases hfull : limit ≤ rows.length
    · rw [if_pos hfull, readKeys_full hfull]
      rfl
    · rw [if_neg hfull]
      cases hkey : parseWriteKey e.1 with
      | none =>
        rw [hkey] at hparse
        have hnil : walkedKeys endKey (e :: es) = [] := by
          unfold walkedKeys
          rw [takeWhile_cons_of_neg (by rw [stays_of_none hparse.symm]; simp)]
          rfl
        rw [hnil]
        rfl
      | some r =>
        rw [hkey] at hparse
        have hcol : columnKey kWritePrefix e.1 = some r.1 := hparse.symm
        dsimp only
        cases hbeyond : beyond endKey r.1 with
        | true =>
          have hnil : walkedKeys endKey (e :: es) = [] := by
            unfold walkedKeys
            rw [takeWhile_cons_of_neg (by rw [stays_of_some hcol, hbeyond]; simp)]
            rfl
          rw [hnil, if_pos rfl]
          rfl
        | false =>
          have hcons : walkedKeys endKey (e :: es) = r.1 :: walkedKeys endKey es := by
            unfold walkedKeys
            rw [takeWhile_cons_of_pos (by rw [stays_of_some hcol, hbeyond]; rfl),
              List.filterMap_cons, hcol]
          rw [hcons] at hfree ⊢
          have hrest := htail fun k hk => hfree k (mem_cons_of_mem _ hk)
          rw [if_neg Bool.false_ne_true]
          unfold newKeys
          by_cases hlast : last = some r.1
          · rw [if_pos hlast, if_pos hlast]
            exact hrest last rows
          · rw [if_neg hlast, if_neg hlast]
            cases hget : txnGet db r.1 ts with
            | error s =>
              unfold readKeys
              rw [if_neg hfull, hget]
              rfl
            | ok result =>
              have hnolock := hfree r.1 mem_cons_self result hget
              conv_rhs => unfold readKeys
              rw [if_neg hfull, hget]
              dsimp only
              rw [hnolock]
              exact hrest (some r.1) _

theorem sorted_walkedKeys (h : Formed db) (start endKey : Bytes) :
    (walkedKeys endKey (db.seek (kWritePrefix ++ escapeBody start))).Pairwise (· ≤ ·) ∧
      ∀ k, k ∈ walkedKeys endKey (db.seek (kWritePrefix ++ escapeBody start)) ↔
        InRange start endKey k ∧ ∃ ts v, db.get? (writeKey k ts) = some v := by
  have hwalk : walkedKeys endKey (db.seek (kWritePrefix ++ escapeBody start)) =
      (column db kWritePrefix start endKey).filterMap (fun e => columnKey kWritePrefix e.1) := by
    rw [← visits_eq h.writeColumn]
    rfl
  have hkey : ∀ k ts, columnKey kWritePrefix (writeKey k ts) = some k :=
    fun k ts => columnKey_append rfl k (invertedTs ts)
  rw [hwalk]
  constructor
  · rw [List.pairwise_filterMap]
    refine (sorted_column kWritePrefix start endKey).imp_of_mem ?_
    intro a b ha hb hlt x hx y hy
    obtain ⟨k, ts, hk, _, _⟩ := (mem_writeColumn h).mp ha
    obtain ⟨k', ts', hk', _, _⟩ := (mem_writeColumn h).mp hb
    rw [hk, hkey] at hx
    rw [hk', hkey] at hy
    cases hx
    cases hy
    by_contra hgt
    have hgt := not_le.mp hgt
    rw [hk, hk'] at hlt
    unfold writeKey at hlt
    rw [append_assoc, append_assoc, append_lt_append_iff] at hlt
    exact absurd ((escapeKey_lt_iff (ne_of_lt hgt) _ _).mpr hgt) (lt_asymm hlt)
  · intro k
    rw [mem_filterMap]
    constructor
    · rintro ⟨e, he, hcol⟩
      obtain ⟨k', ts, hk', hin, hget⟩ := (mem_writeColumn h).mp he
      rw [hk', hkey] at hcol
      cases hcol
      exact ⟨hin, ts, e.2, hk' ▸ hget⟩
    · rintro ⟨hin, ts, v, hget⟩
      exact ⟨(writeKey k ts, v), (mem_writeColumn h).mpr ⟨k, ts, rfl, hin, hget⟩, hkey k ts⟩

/-! ## Keys without write records. -/

theorem versionScan_unwritten (h : Formed db) (ts : UInt64)
    (hno : ∀ ts v, db.get? (writeKey k ts) ≠ some v) : versionScan db k ts = .ok (0, false) := by
  unfold versionScan forEachWriteAtOrBelow
  cases hseek : db.seek (writeKey k ts) with
  | nil => rfl
  | cons e rest =>
    have he : e ∈ db.entries := by
      have hmem : e ∈ db.seek (writeKey k ts) := by
        rw [hseek]
        exact mem_cons_self
      rw [SortedMap.seek_eq_filter] at hmem
      exact (mem_filter.mp hmem).1
    unfold walkWrites
    cases hparse : parseWriteKey e.1 with
    | none => rfl
    | some r =>
      have hne : r.1 ≠ k := by
        intro heq
        have hcol := parse_eq_columnKey h he
        rw [hparse] at hcol
        have htake : e.1.take 2 = kWritePrefix := by
          by_contra hnot
          unfold columnKey at hcol
          rw [if_neg hnot] at hcol
          cases hcol
        have hget := SortedMap.mem_entries.mp he
        obtain ⟨k', ts', hk'⟩ := h.write hget htake
        rw [hk', parseWriteKey_writeKey] at hparse
        cases hparse
        have heq : k' = k := heq
        rw [hk', heq] at hget
        exact hno ts' e.2 hget
      exact if_pos hne

theorem txnGet_unwritten (h : Readable db) (ts : UInt64)
    (hno : ∀ ts v, db.get? (writeKey k ts) ≠ some v) :
    (∀ s, txnGet db k ts ≠ .error s) ∧ rowOf db ts k = none := by
  obtain ⟨lock, hlock⟩ := h.getLock_ok k
  have hscan := versionScan_unwritten h.toFormed ts hno
  have hget : (∃ l, txnGet db k ts = .ok { locked := some l }) ∨ txnGet db k ts = .ok {} := by
    unfold txnGet
    rw [hlock]
    dsimp only
    cases lock.filter (fun lock => lock.startTs ≤ ts) with
    | some l => exact .inl ⟨l, rfl⟩
    | none =>
      rw [hscan]
      exact .inr (if_pos (.inr rfl))
  unfold rowOf
  cases hget with
  | inl hlocked =>
    obtain ⟨l, hl⟩ := hlocked
    rw [hl]
    exact ⟨fun s hs => (by cases hs), rfl⟩
  | inr hempty =>
    rw [hempty]
    exact ⟨fun s hs => (by cases hs), rfl⟩

theorem rowOf_eq_some :
    rowOf db ts k = some (k, v) ↔ txnGet db k ts = .ok { found := true, value := v } := by
  -- a found result carries no lock
  have hlocked : ∀ r, txnGet db k ts = .ok r → r.found = true → r.locked = none := by
    intro r hr hfound
    unfold txnGet at hr
    split at hr
    · cases hr
    · split at hr
      · cases hr
        cases hfound
      · split at hr
        · cases hr
        · split at hr
          · cases hr
            rfl
          · split at hr
            · cases hr
            · cases hr
              rfl
  unfold rowOf
  cases hget : txnGet db k ts with
  | error s => simp
  | ok r =>
    cases hfound : r.found with
    | false =>
      refine iff_of_false (by simp [hfound]) fun heq => ?_
      cases heq
      cases hfound
    | true =>
      have hnone := hlocked r hget hfound
      cases r with
      | mk found value locked =>
        cases hfound
        cases hnone
        simp

theorem locked_of_txnGet {r : TxnReadResult} (hget : txnGet db k ts = .ok r)
    (hlock : r.locked = some lock) :
    getLock db k = .ok (some lock) ∧ lock.startTs ≤ ts := by
  unfold txnGet at hget
  split at hget
  · cases hget
  · rename_i l hl
    split at hget
    · rename_i l' hl'
      cases hget
      cases hlock
      obtain ⟨hsome, hts⟩ := filter_eq_some_iff.mp hl'
      rw [hl, hsome]
      exact ⟨rfl, of_decide_eq_true hts⟩
    · split at hget
      · cases hget
      · split at hget
        · cases hget
          cases hlock
        · split at hget
          · cases hget
          · cases hget
            cases hlock

/-! ## The scan. -/

/-- The rows of a scan without a limit. -/
def scanRows (db : DB) (start endKey : Bytes) (ts : UInt64) : List (Bytes × Bytes) :=
  (newKeys none (walkedKeys endKey (db.seek (kWritePrefix ++ escapeBody start)))).filterMap
    (rowOf db ts)

theorem sorted_scanRows (h : Formed db) (start endKey : Bytes) (ts : UInt64) :
    (scanRows db start endKey ts).Pairwise (fun a b => a.1 < b.1) := by
  have hwalk := (sorted_walkedKeys h start endKey).1
  unfold scanRows
  rw [List.pairwise_filterMap]
  refine (sorted_newKeys hwalk (by simp)).imp ?_
  intro a b hlt x hx y hy
  rw [rowOf_key hx, rowOf_key hy]
  exact hlt

theorem mem_scanRows (h : Readable db) :
    (k, v) ∈ scanRows db start endKey ts ↔
      InRange start endKey k ∧ txnGet db k ts = .ok { found := true, value := v } := by
  have hwalk := sorted_walkedKeys h.toFormed start endKey
  unfold scanRows
  rw [mem_filterMap]
  constructor
  · rintro ⟨k', hk', hrow⟩
    have hkey : k = k' := rowOf_key hrow
    rw [← hkey] at hk' hrow
    have hmem := (mem_newKeys hwalk.1 (by simp) k).mp hk'
    exact ⟨((hwalk.2 k).mp hmem.1).1, rowOf_eq_some.mp hrow⟩
  · rintro ⟨hin, hget⟩
    have hrow := rowOf_eq_some.mpr hget
    refine ⟨k, (mem_newKeys hwalk.1 (by simp) k).mpr ⟨(hwalk.2 k).mpr ⟨hin, ?_⟩, by simp⟩, hrow⟩
    by_contra hno
    push Not at hno
    rw [(txnGet_unwritten h ts hno).2] at hrow
    cases hrow

theorem txnScan_free (h : Readable db)
    (hfree : ∀ k lock, InRange start endKey k → getLock db k = .ok (some lock) →
      ¬ lock.startTs ≤ ts) :
    txnScan db start endKey ts limit =
      (readKeys db ts limit
        (newKeys none (walkedKeys endKey (db.seek (kWritePrefix ++ escapeBody start)))) []).map
        (fun rows => { rows := rows }) := by
  unfold txnScan
  rw [lockPass_column h, findSome?_free h hfree]
  apply walkKeys_eq h.toFormed
  · intro e he
    rw [SortedMap.seek_eq_filter] at he
    exact (mem_filter.mp he).1
  · intro k hk r hget
    have hin := (((sorted_walkedKeys h.toFormed start endKey).2 k).mp hk).1
    cases hlock : r.locked with
    | none => rfl
    | some lock =>
      have hl := locked_of_txnGet hget hlock
      exact absurd hl.2 (hfree k lock hin hl.1)

theorem mem_readKeys (h : Readable db) (start endKey k : Bytes) :
    k ∈ newKeys none (walkedKeys endKey (db.seek (kWritePrefix ++ escapeBody start))) ↔
      InRange start endKey k ∧ ∃ ts v, db.get? (writeKey k ts) = some v := by
  have hwalk := sorted_walkedKeys h.toFormed start endKey
  rw [mem_newKeys hwalk.1 (by simp), hwalk.2 k]
  simp

theorem sorted_readKeys (h : Readable db) (start endKey : Bytes) :
    (newKeys none (walkedKeys endKey (db.seek (kWritePrefix ++ escapeBody start)))).Pairwise
      (· < ·) :=
  sorted_newKeys (sorted_walkedKeys h.toFormed start endKey).1 (by simp)

theorem txnScan_ok (h : Readable db)
    (hfree : ∀ k lock, InRange start endKey k → getLock db k = .ok (some lock) →
      ¬ lock.startTs ≤ ts) (hok : ∀ k s, InRange start endKey k → txnGet db k ts = .error s →
      limit ≤ ((scanRows db start endKey ts).filter (fun row => row.1 < k)).length) :
    txnScan db start endKey ts limit = .ok { rows := (scanRows db start endKey ts).take limit } := by
  rw [txnScan_free h hfree, readKeys_ok (sorted_readKeys h start endKey) (Nat.zero_le _)]
  · rfl
  · intro k hk s hs
    rw [length_nil, Nat.zero_add]
    exact hok k s ((mem_readKeys h start endKey k).mp hk).1 hs

theorem txnScan_error (h : Readable db) {s : Status}
    (hfree : ∀ k lock, InRange start endKey k → getLock db k = .ok (some lock) →
      ¬ lock.startTs ≤ ts) (hin : InRange start endKey k) (hget : txnGet db k ts = .error s)
    (hfirst : ∀ k' s', InRange start endKey k' → k' < k → txnGet db k' ts ≠ .error s')
    (hroom : ((scanRows db start endKey ts).filter (fun row => row.1 < k)).length < limit) :
    txnScan db start endKey ts limit = .error s := by
  -- a key on which the read fails has a write record
  have hwritten : ∃ ts v, db.get? (writeKey k ts) = some v := by
    by_contra hno
    push Not at hno
    exact (txnGet_unwritten h ts hno).1 s hget
  have hkeys := mem_readKeys h start endKey
  rw [txnScan_free h hfree,
    readKeys_error (sorted_readKeys h start endKey) ((hkeys k).mpr ⟨hin, hwritten⟩) hget]
  · rfl
  · exact fun k' hk' hlt s' => hfirst k' s' ((hkeys k').mp hk').1 hlt
  · rw [length_nil, Nat.zero_add]
    exact hroom

/-- **`TxnScan` agrees with `TxnGet`** on every database that transactional commands leave: the
smallest blocking lock of the range is reported; without one, the rows are the first `limit` of
those that `TxnGet` finds in the range, in key order.  Where `TxnGet` itself fails on a key
before the limit is reached, the scan fails as it does on the first such key. -/
theorem txnScan_agrees_txnGet (db₀ : DB) (hbase : Untouched db₀) (cmds : List TxnCommand)
    (start endKey : Bytes) (ts : UInt64) (limit : Nat) :
    (∀ k lock, InRange start endKey k → getLock (applyTxns db₀ cmds) k = .ok (some lock) →
      lock.startTs ≤ ts →
      (∀ k' lock', InRange start endKey k' → k' < k →
        getLock (applyTxns db₀ cmds) k' = .ok (some lock') → ¬ lock'.startTs ≤ ts) →
      txnScan (applyTxns db₀ cmds) start endKey ts limit = .ok { blocked := some (lock, k) }) ∧
    ((∀ k lock, InRange start endKey k → getLock (applyTxns db₀ cmds) k = .ok (some lock) →
      ¬ lock.startTs ≤ ts) →
      ∃ all : List (Bytes × Bytes), all.Pairwise (fun a b => a.1 < b.1) ∧
        (∀ k v, (k, v) ∈ all ↔ InRange start endKey k ∧
          txnGet (applyTxns db₀ cmds) k ts = .ok { found := true, value := v }) ∧
        ((∀ k s, InRange start endKey k → txnGet (applyTxns db₀ cmds) k ts = .error s →
          limit ≤ (all.filter (fun row => row.1 < k)).length) →
          txnScan (applyTxns db₀ cmds) start endKey ts limit = .ok { rows := all.take limit }) ∧
        (∀ k s, InRange start endKey k → txnGet (applyTxns db₀ cmds) k ts = .error s →
          (∀ k' s', InRange start endKey k' → k' < k →
            txnGet (applyTxns db₀ cmds) k' ts ≠ .error s') →
          (all.filter (fun row => row.1 < k)).length < limit →
          txnScan (applyTxns db₀ cmds) start endKey ts limit = .error s)) := by
  have h : Readable (applyTxns db₀ cmds) := hbase.readable.applyTxns cmds
  generalize applyTxns db₀ cmds = db at h
  constructor
  · intro k lock hin hlock hts hfirst
    unfold txnScan
    rw [lockPass_column h, findSome?_blocking h hin hlock hts hfirst]
  · intro hfree
    refine ⟨scanRows db start endKey ts, sorted_scanRows h.toFormed start endKey ts,
      fun k v => mem_scanRows h, ?_, ?_⟩
    · intro hok
      exact txnScan_ok h hfree hok
    · intro k s hin hget hfirst hroom
      exact txnScan_error h hfree hin hget hfirst hroom

/-- Four keys: one committed, one committed and deleted, one rolled back, one committed. -/
def fourKeys : List TxnCommand :=
  [txnPrewrite (text "a") (text "1") 1 1 (text "a") 0, txnCommit (text "a") 1 2,
    txnPrewrite (text "b") (text "2") 1 1 (text "a") 0, txnCommit (text "b") 1 2,
    txnPrewrite (text "b") [] 2 3 (text "b") 0, txnCommit (text "b") 3 4,
    txnPrewrite (text "c") (text "3") 1 5 (text "c") 0, txnRollback (text "c") 5,
    txnPrewrite (text "d") (text "4") 1 6 (text "d") 0, txnCommit (text "d") 6 7]

/-- A key that has only ever been prewritten blocks the scan.  Of the four keys it returns those
that hold a value. -/
theorem txnScan_agrees_txnGet_fourKeys :
    txnScan (applyTxns .empty [txnPrewrite (text "a") (text "1") 1 1 (text "a") 0]) [] [] 10 5 =
      .ok { blocked := some (⟨1, 1, 0, text "a"⟩, text "a") } ∧
    ∃ all : List (Bytes × Bytes), (∀ k v, (k, v) ∈ all ↔
        txnGet (applyTxns .empty fourKeys) k 10 = .ok { found := true, value := v }) ∧
      all.take 5 = [(text "a", text "1"), (text "d", text "4")] := by
  have hbase : Untouched .empty := nofun
  constructor
  · have hlock : getLock (applyTxns .empty [txnPrewrite (text "a") (text "1") 1 1 (text "a") 0])
        (text "a") = .ok (some ⟨1, 1, 0, text "a"⟩) :=
      getLock_eq_some.mpr ⟨encodeLock ⟨1, 1, 0, text "a"⟩, by decide +kernel⟩
    have honly : ∀ e ∈ (applyTxns .empty [txnPrewrite (text "a") (text "1") 1 1 (text "a") 0]).entries,
        e.1.take 2 = kLockPrefix → e.1 = lockKey (text "a") := by decide +kernel
    apply (txnScan_agrees_txnGet .empty hbase _ [] [] 10 5).1 (text "a") _ (by decide +kernel) hlock
      (by decide)
    intro k lock _ hlt hget
    obtain ⟨v, hv, _⟩ := getLock_eq_some.mp hget
    have hsame : lockKey k = lockKey (text "a") := honly _ (SortedMap.mem_entries.mpr hv) rfl
    exact absurd hsame (ne_of_lt (lockKey_lt_iff.mpr hlt))
  · have hlocks : ∀ e ∈ (applyTxns .empty fourKeys).entries, e.1.take 2 ≠ kLockPrefix := by
      decide +kernel
    have hwrites : ∀ e ∈ (applyTxns .empty fourKeys).entries, e.1.take 2 = kWritePrefix →
        (parseWriteKey e.1).any (fun w => w.1 ∈ ["a", "b", "c", "d"].map text) = true := by
      decide +kernel
    have hgets : ∀ k ∈ ["a", "b", "c", "d"].map text,
        (txnGet (applyTxns .empty fourKeys) k 10).toOption.isSome = true := by decide +kernel
    have hscan : (txnScan (applyTxns .empty fourKeys) [] [] 10 5).toOption =
        some { rows := [(text "a", text "1"), (text "d", text "4")] } := by decide +kernel
    obtain ⟨all, _, hall, hrows, _⟩ := (txnScan_agrees_txnGet .empty hbase fourKeys [] [] 10 5).2
      fun k lock _ hlock => by
        obtain ⟨v, hv, _⟩ := getLock_eq_some.mp hlock
        exact absurd (take_two_lockKey k) (hlocks _ (SortedMap.mem_entries.mpr hv))
    have hfirst := hrows fun k s _ hget => by
      by_cases hk : k ∈ ["a", "b", "c", "d"].map text
      · have := hgets k hk
        rw [hget] at this
        cases this
      · refine absurd hget ((txnGet_unwritten (hbase.readable.applyTxns fourKeys) 10
          fun t v hv => hk ?_).1 s)
        have hparse := hwrites _ (SortedMap.mem_entries.mpr hv) (take_two_writeKey k t)
        rw [parseWriteKey_writeKey] at hparse
        simpa using hparse
    refine ⟨all, fun k v => ?_, ?_⟩
    · exact (hall k v).trans ⟨And.right, fun h => ⟨⟨not_lt.mp (not_lt_nil k), .inl rfl⟩, h⟩⟩
    · rw [hfirst] at hscan
      exact congrArg TxnScanResult.rows (Option.some.inj hscan)

/-- Two keys.  The first is written and committed.  The second is committed below its start
timestamp, and a rollback marker hides that record from a second prewrite of the same
transaction, whose rollback then takes the data away. -/
def hiddenCommit : List TxnCommand :=
  [txnPrewrite (text "a") (text "1") 1 1 (text "a") 0, txnCommit (text "a") 1 2,
    txnPrewrite (text "b") (text "2") 1 5 (text "b") 0, txnCommit (text "b") 5 3,
    txnRollback (text "b") 4, txnPrewrite (text "b") (text "2") 1 5 (text "b") 0,
    txnRollback (text "b") 5]

/-- A row that `TxnGet` finds is missing, and no lock is reported: the scan fails on the other
key. -/
theorem txnScan_fails :
    (txnGet (applyTxns .empty hiddenCommit) (text "a") 10).toOption =
        some { found := true, value := text "1" } ∧
      ∃ s, txnScan (applyTxns .empty hiddenCommit) [] [] 10 5 = .error s ∧ s.code = .corruption := by
  constructor
  · decide +kernel
  · have hcode : (match txnScan (applyTxns .empty hiddenCommit) [] [] 10 5 with
        | .error s => decide (s.code = .corruption)
        | .ok _ => false) = true := by decide +kernel
    cases hscan : txnScan (applyTxns .empty hiddenCommit) [] [] 10 5 with
    | error s =>
      rw [hscan] at hcode
      exact ⟨s, rfl, of_decide_eq_true hcode⟩
    | ok r =>
      rw [hscan] at hcode
      cases hcode

end Flotilla.Txn.Codec
