/-
  Txn.Ops — the transactional operations on stored bytes,
  `txn/txn_ops.cc`.

  The database is what its iterators show: pairs of byte strings in key order.
  Every operation decodes what it reads, so a pair that is not one of the three
  formats makes it stop or fail; `Formed` says that all keys under the three
  prefixes are of their format, and `Readable` that the records decode too.

  Reading guide:
    * the database never fails here: a failing one is fatal to the node;
    * `applyTxn` is `ApplyCommand` on the ops 4 to 6, from the undecoded payload;
    * a column is the pairs under one prefix, named by their user keys
      (`columnKey`).
-/
import Flotilla.Lib.SortedMap
import Flotilla.Txn.Codec

namespace Flotilla.Txn.Codec

open SortedMap

/-- `storage::DB`, as an iterator shows it. -/
abbrev DB := SortedMap Bytes Bytes

/-! ## Reading records. -/

/-- The loop of `ForEachWriteAtOrBelow`: the callback updates what it captured and says
whether to continue. -/
def walkWrites {σ : Type} (key : Bytes) (fn : σ → UInt64 → WriteRecord → σ × Bool) :
    List (Bytes × Bytes) → σ → Except Status σ
  | [], s => .ok s
  | e :: rest, s =>
      match parseWriteKey e.1 with
      | none => .ok s
      | some (userKey, commitTs) =>
          if userKey ≠ key then .ok s
          else
            match decodeWrite e.2 with
            | none => .error ⟨.corruption, text "bad write record"⟩
            | some rec =>
                if (fn s commitTs rec).2 then walkWrites key fn rest (fn s commitTs rec).1
                else .ok (fn s commitTs rec).1

def forEachWriteAtOrBelow {σ : Type} (db : DB) (key : Bytes) (ts : UInt64)
    (fn : σ → UInt64 → WriteRecord → σ × Bool) (s : σ) : Except Status σ :=
  walkWrites key fn (db.seek (writeKey key ts)) s

/-- `has_lock` and `lock` -/
def getLock (db : DB) (key : Bytes) : Except Status (Option LockRecord) :=
  match db.get? (lockKey key) with
  | none => .ok none
  | some raw =>
      match decodeLock raw with
      | none => .error ⟨.corruption, text "bad lock record"⟩
      | some lock => .ok (some lock)

/-- The commit timestamp of the transaction, 0 if none, and whether its rollback marker was
met. -/
def findTxnOutcome (db : DB) (key : Bytes) (startTs : UInt64) : Except Status (UInt64 × Bool) :=
  forEachWriteAtOrBelow db key (UInt64.ofNat (2 ^ 64 - 1))
    (fun s cts rec =>
      if rec.startTs = startTs then
        (if rec.kind = kWriteRollback then (s.1, true) else (cts, s.2), false)
      -- newest first: stop once below `start_ts`
      else (s, decide (startTs < cts)))
    (0, false)

/-! ## Prewrite, commit, rollback. -/

/-- `newest_commit` and `rollback_here` of `ApplyPrewrite`. -/
def conflictScan (db : DB) (key : Bytes) (startTs : UInt64) : Except Status (UInt64 × Bool) :=
  forEachWriteAtOrBelow db key (UInt64.ofNat (2 ^ 64 - 1))
    (fun s commitTs rec =>
      if rec.kind = kWriteRollback then
        ((s.1, s.2 || decide (rec.startTs = startTs)), decide (startTs < commitTs))
      else ((max s.1 commitTs, s.2), false))
    (0, false)

def applyPrewrite (db : DB) (key value : Bytes) (op : UInt8) (startTs : UInt64) (primary : Bytes)
    (wallMs : UInt64) : Status × DB :=
  match conflictScan db key startTs with
  | .error s => (s, db)
  | .ok (newestCommit, rollbackHere) =>
      if rollbackHere then (⟨.aborted, text "transaction rolled back"⟩, db)
      else if startTs ≤ newestCommit then
        (⟨.conflict, text "write conflict: committed at " ++ decimal newestCommit.toNat⟩, db)
      else
        match getLock db key with
        | .error s => (s, db)
        | .ok (some existing) =>
            if existing.startTs = startTs then ({}, db)  -- replayed prewrite
            else (⟨.conflict, text "locked by txn " ++ decimal existing.startTs.toNat ++
              text " primary " ++ existing.primary⟩, db)
        | .ok none =>
            let locked := db.insert (lockKey key) (encodeLock ⟨startTs, op, wallMs, primary⟩)
            ({}, if op = 1 then locked.insert (dataKey key startTs) value else locked)

def applyCommit (db : DB) (key : Bytes) (startTs commitTs : UInt64) : Status × DB :=
  match getLock db key with
  | .error s => (s, db)
  | .ok lock =>
      match lock.filter (fun lock => lock.startTs = startTs) with
      | none =>
          -- replayed commit or lost lock: consult history
          match findTxnOutcome db key startTs with
          | .error s => (s, db)
          | .ok (existingCommit, rolledBack) =>
              if existingCommit ≠ 0 then ({}, db)
              else if rolledBack then (⟨.aborted, text "transaction rolled back"⟩, db)
              else (⟨.aborted, text "lock lost before commit"⟩, db)
      | some lock =>
          let kind := if lock.op = 2 then kWriteDelete else kWritePut
          let written := db.insert (writeKey key commitTs) (encodeWrite ⟨kind, startTs⟩)
          ({}, written.erase (lockKey key))

/-- The lock of the transaction goes, with its data record. -/
def unlock (db : DB) (key : Bytes) (startTs : UInt64) (lock : Option LockRecord) : DB :=
  match lock.filter (fun lock => lock.startTs = startTs) with
  | some _ => (db.erase (lockKey key)).erase (dataKey key startTs)
  | none => db

def applyRollback (db : DB) (key : Bytes) (startTs : UInt64) : Status × DB :=
  match getLock db key with
  | .error s => (s, db)
  | .ok lock =>
      match findTxnOutcome db key startTs with
      | .error s => (s, db)
      | .ok (existingCommit, rolledBack) =>
          if existingCommit ≠ 0 then (⟨.conflict, text "transaction already committed"⟩, db)
          else
            let unlocked := unlock db key startTs lock
            if rolledBack then ({}, unlocked)
            -- a rollback marker uses `start_ts` as its commit slot
            else ({}, unlocked.insert (writeKey key startTs) (encodeWrite ⟨kWriteRollback, startTs⟩))

/-- A decoded state-machine command. -/
structure TxnCommand where
  op : Nat
  key : Bytes
  value : Bytes

/-- `ApplyCommand` on a prewrite (op 4), a commit (op 5) or a rollback (op 6). -/
def applyTxn (db : DB) (cmd : TxnCommand) : Status × DB :=
  match cmd.op with
  | 4 =>
      let wop := (⟨cmd.value, false⟩ : Decoder).u8
      let startTs := wop.2.u64
      let wallMs := startTs.2.u64
      let primary := wallMs.2.lengthPrefixed
      let txnValue := primary.2.lengthPrefixed
      if txnValue.2.ok = false ∨ txnValue.2.remaining ≠ 0 ∨ (wop.1 ≠ 1 ∧ wop.1 ≠ 2) then
        (⟨.corruption, text "bad prewrite payload"⟩, db)
      else
        applyPrewrite db cmd.key txnValue.1 (UInt8.ofNat wop.1) (UInt64.ofNat startTs.1) primary.1
          (UInt64.ofNat wallMs.1)
  | 5 =>
      let startTs := (⟨cmd.value, false⟩ : Decoder).u64
      let commitTs := startTs.2.u64
      if commitTs.2.ok = false ∨ commitTs.2.remaining ≠ 0 then
        (⟨.corruption, text "bad commit payload"⟩, db)
      else applyCommit db cmd.key (UInt64.ofNat startTs.1) (UInt64.ofNat commitTs.1)
  | 6 =>
      let startTs := (⟨cmd.value, false⟩ : Decoder).u64
      if startTs.2.ok = false ∨ startTs.2.remaining ≠ 0 then
        (⟨.corruption, text "bad rollback payload"⟩, db)
      else applyRollback db cmd.key (UInt64.ofNat startTs.1)
  | _ => (⟨.corruption, text "unknown op"⟩, db)

/-! The commands as `TxnPrewrite`, `TxnCommit` and `TxnRollback` propose them. -/

def txnPrewrite (key value : Bytes) (wop : UInt8) (startTs : UInt64) (primary : Bytes)
    (wallMs : UInt64) : TxnCommand :=
  ⟨4, key, putFixed8 wop.toNat ++ putFixed64 startTs.toNat ++ putFixed64 wallMs.toNat ++
    putLengthPrefixed primary ++ putLengthPrefixed value⟩

def txnCommit (key : Bytes) (startTs commitTs : UInt64) : TxnCommand :=
  ⟨5, key, putFixed64 startTs.toNat ++ putFixed64 commitTs.toNat⟩

def txnRollback (key : Bytes) (startTs : UInt64) : TxnCommand :=
  ⟨6, key, putFixed64 startTs.toNat⟩

def applyTxns (db : DB) (cmds : List TxnCommand) : DB :=
  cmds.foldl (fun db cmd => (applyTxn db cmd).2) db

/-! ## Snapshot reads. -/

structure TxnReadResult where
  found : Bool := false
  value : Bytes := []
  /-- `locked` and `lock` -/
  locked : Option LockRecord := none
  deriving DecidableEq

/-- `data_ts`, and whether the newest version is a deletion. -/
def versionScan (db : DB) (key : Bytes) (ts : UInt64) : Except Status (UInt64 × Bool) :=
  forEachWriteAtOrBelow db key ts
    (fun s _ rec =>
      if rec.kind = kWriteRollback then (s, true)
      else if rec.kind = kWriteDelete then ((s.1, true), false)
      else ((rec.startTs, s.2), false))
    (0, false)

def txnGet (db : DB) (key : Bytes) (ts : UInt64) : Except Status TxnReadResult :=
  match getLock db key with
  | .error s => .error s
  | .ok lock =>
      match lock.filter (fun lock => lock.startTs ≤ ts) with
      | some lock => .ok { locked := some lock }
      | none =>
          match versionScan db key ts with
          | .error s => .error s
          | .ok (dataTs, deleted) =>
              if deleted = true ∨ dataTs = 0 then .ok {}
              else
                match db.get? (dataKey key dataTs) with
                | none => .error ⟨.corruption, text "missing data record"⟩
                | some value => .ok { found := true, value := value }

structure TxnScanResult where
  rows : List (Bytes × Bytes) := []
  /-- `blocked`, with `blocking_lock` and `blocking_key` -/
  blocked : Option (LockRecord × Bytes) := none
  deriving DecidableEq

/-- `!end.empty() && user_key >= end` -/
def beyond (endKey userKey : Bytes) : Bool := decide (endKey ≠ [] ∧ endKey ≤ userKey)

/-- The lock pre-pass: a key that has only ever been prewritten has no write records. -/
def lockPass (endKey : Bytes) (ts : UInt64) :
    List (Bytes × Bytes) → Except Status (Option (LockRecord × Bytes))
  | [] => .ok none
  | e :: rest =>
      if e.1.take 2 ≠ kLockPrefix then .ok none
      else
        match unescapeKey (e.1.drop 2) with
        | none => .ok none
        | some (userKey, _) =>
            if beyond endKey userKey then .ok none
            else
              match decodeLock e.2 with
              | none => .error ⟨.corruption, text "bad lock record"⟩
              | some lock =>
                  if lock.startTs ≤ ts then .ok (some (lock, userKey))
                  else lockPass endKey ts rest

/-- The walk over distinct user keys via the write column; `last` is `last_key` once there is
one. -/
def walkKeys (db : DB) (endKey : Bytes) (ts : UInt64) (limit : Nat) :
    List (Bytes × Bytes) → Option Bytes → List (Bytes × Bytes) → Except Status TxnScanResult
  | [], _, rows => .ok { rows := rows }
  | e :: rest, last, rows =>
      if limit ≤ rows.length then .ok { rows := rows }
      else
        match parseWriteKey e.1 with
        | none => .ok { rows := rows }
        | some (userKey, _) =>
            if beyond endKey userKey then .ok { rows := rows }
            else if last = some userKey then walkKeys db endKey ts limit rest last rows
            else
              match txnGet db userKey ts with
              | .error s => .error s
              | .ok result =>
                  match result.locked with
                  | some lock => .ok { rows := rows, blocked := some (lock, userKey) }
                  | none =>
                      walkKeys db endKey ts limit rest (some userKey)
                        (if result.found then rows ++ [(userKey, result.value)] else rows)

def txnScan (db : DB) (start endKey : Bytes) (ts : UInt64) (limit : Nat) :
    Except Status TxnScanResult :=
  match lockPass endKey ts (db.seek (kLockPrefix ++ escapeBody start)) with
  | .error s => .error s
  | .ok (some lock) => .ok { blocked := some lock }
  | .ok none => walkKeys db endKey ts limit (db.seek (kWritePrefix ++ escapeBody start)) none []

/-! ## Databases of the three formats. -/

/-- All keys under the three prefixes are of their formats. -/
structure Formed (db : DB) : Prop where
  lock : ∀ {key v}, db.get? key = some v → key.take 2 = kLockPrefix → ∃ k, key = lockKey k
  write : ∀ {key v}, db.get? key = some v → key.take 2 = kWritePrefix → ∃ k ts, key = writeKey k ts
  data : ∀ {key v}, db.get? key = some v → key.take 2 = kDataPrefix → ∃ k ts, key = dataKey k ts

/-- The lock and write records decode, too. -/
structure Readable (db : DB) : Prop extends Formed db where
  locks : ∀ {k v}, db.get? (lockKey k) = some v → ∃ lock, decodeLock v = some lock
  writes : ∀ {k ts v}, db.get? (writeKey k ts) = some v → ∃ rec, decodeWrite v = some rec

/-- Nothing under the prefixes: the keyspace before the first transaction. -/
def Untouched (db : DB) : Prop := ∀ {key v}, db.get? key = some v → key.head? ≠ some 33

theorem take_two_lockKey (k : Bytes) : (lockKey k).take 2 = kLockPrefix := rfl

theorem take_two_writeKey (k : Bytes) (ts : UInt64) : (writeKey k ts).take 2 = kWritePrefix := rfl

theorem lockKey_ne_writeKey (k k' : Bytes) (ts : UInt64) : lockKey k ≠ writeKey k' ts := by
  intro h
  have htake := congrArg (List.take 2) h
  exact absurd htake (by decide : kLockPrefix ≠ kWritePrefix)

theorem lockKey_ne_dataKey (k k' : Bytes) (ts : UInt64) : lockKey k ≠ dataKey k' ts := by
  intro h
  have htake := congrArg (List.take 2) h
  exact absurd htake (by decide : kLockPrefix ≠ kDataPrefix)

theorem writeKey_ne_dataKey (k k' : Bytes) (ts ts' : UInt64) : writeKey k ts ≠ dataKey k' ts' := by
  intro h
  have htake := congrArg (List.take 2) h
  exact absurd htake (by decide : kWritePrefix ≠ kDataPrefix)

variable {db : DB} {p : Bytes}

theorem Untouched.readable (h : Untouched db) : Readable db := by
  -- every key of the three formats begins with '!'
  have hlock : ∀ {key v p}, db.get? key = some v → key.take 2 = 33 :: p → False := by
    intro key v p hget htake
    apply h hget
    cases key with
    | nil => cases htake
    | cons c key => exact congrArg some (List.cons.inj htake).1
  exact {
    lock := fun hget htake => (hlock hget htake).elim
    write := fun hget htake => (hlock hget htake).elim
    data := fun hget htake => (hlock hget htake).elim
    locks := fun hget => (hlock hget (take_two_lockKey _)).elim
    writes := fun hget => (hlock hget (take_two_writeKey _ _)).elim }

/-! A database that can be read stays so. -/

namespace Readable

variable {db : DB}

theorem erase (h : Readable db) (key : Bytes) : Readable (db.erase key) := by
  have hsub : ∀ {k v}, (db.erase key).get? k = some v → db.get? k = some v := by
    intro k v hget
    rw [get?_erase] at hget
    by_cases hk : k = key
    · rw [if_pos hk] at hget
      cases hget
    · rw [if_neg hk] at hget
      exact hget
  exact {
    lock := fun hget => h.lock (hsub hget)
    write := fun hget => h.write (hsub hget)
    data := fun hget => h.data (hsub hget)
    locks := fun hget => h.locks (hsub hget)
    writes := fun hget => h.writes (hsub hget) }

theorem get?_insert_cases {key v k w : Bytes} (hget : (db.insert key v).get? k = some w) :
    (k = key ∧ w = v) ∨ db.get? k = some w := by
  rw [get?_insert] at hget
  by_cases hk : k = key
  · rw [if_pos hk] at hget
    exact .inl ⟨hk, (Option.some.inj hget).symm⟩
  · rw [if_neg hk] at hget
    exact .inr hget

theorem insert (h : Readable db) {key v : Bytes}
    (hlock : key.take 2 = kLockPrefix → ∃ k, key = lockKey k)
    (hwrite : key.take 2 = kWritePrefix → ∃ k ts, key = writeKey k ts)
    (hdata : key.take 2 = kDataPrefix → ∃ k ts, key = dataKey k ts)
    (hlocks : ∀ k, key = lockKey k → ∃ lock, decodeLock v = some lock)
    (hwrites : ∀ k ts, key = writeKey k ts → ∃ rec, decodeWrite v = some rec) :
    Readable (db.insert key v) where
  lock := fun hget htake => by
    cases get?_insert_cases hget with
    | inl hnew => exact hnew.1 ▸ hlock (hnew.1 ▸ htake)
    | inr hold => exact h.lock hold htake
  write := fun hget htake => by
    cases get?_insert_cases hget with
    | inl hnew => exact hnew.1 ▸ hwrite (hnew.1 ▸ htake)
    | inr hold => exact h.write hold htake
  data := fun hget htake => by
    cases get?_insert_cases hget with
    | inl hnew => exact hnew.1 ▸ hdata (hnew.1 ▸ htake)
    | inr hold => exact h.data hold htake
  locks := fun hget => by
    cases get?_insert_cases hget with
    | inl hnew => exact hnew.2 ▸ hlocks _ hnew.1.symm
    | inr hold => exact h.locks hold
  writes := fun hget => by
    cases get?_insert_cases hget with
    | inl hnew => exact hnew.2 ▸ hwrites _ _ hnew.1.symm
    | inr hold => exact h.writes hold

theorem insertLock (h : Readable db) (k : Bytes) {lock : LockRecord}
    (hprimary : lock.primary.length < 2 ^ 32) :
    Readable (db.insert (lockKey k) (encodeLock lock)) := by
  apply h.insert
  · exact fun _ => ⟨k, rfl⟩
  · exact fun htake => absurd htake (by decide : kLockPrefix ≠ kWritePrefix)
  · exact fun htake => absurd htake (by decide : kLockPrefix ≠ kDataPrefix)
  · exact fun _ _ => ⟨lock, decodeLock_encodeLock hprimary⟩
  · exact fun k' ts heq => absurd heq (lockKey_ne_writeKey k k' ts)

theorem insertWrite (h : Readable db) (k : Bytes) (ts : UInt64) {rec : WriteRecord}
    (hlow : 1 ≤ rec.kind) (hhigh : rec.kind ≤ 3) :
    Readable (db.insert (writeKey k ts) (encodeWrite rec)) := by
  apply h.insert
  · exact fun htake => absurd htake (by decide : kWritePrefix ≠ kLockPrefix)
  · exact fun _ => ⟨k, ts, rfl⟩
  · exact fun htake => absurd htake (by decide : kWritePrefix ≠ kDataPrefix)
  · exact fun k' heq => absurd heq.symm (lockKey_ne_writeKey k' k ts)
  · exact fun _ _ _ => ⟨rec, decodeWrite_encodeWrite hlow hhigh⟩

theorem insertData (h : Readable db) (k : Bytes) (ts : UInt64) (value : Bytes) :
    Readable (db.insert (dataKey k ts) value) := by
  apply h.insert
  · exact fun htake => absurd htake (by decide : kDataPrefix ≠ kLockPrefix)
  · exact fun htake => absurd htake (by decide : kDataPrefix ≠ kWritePrefix)
  · exact fun _ => ⟨k, ts, rfl⟩
  · exact fun k' heq => absurd heq.symm (lockKey_ne_dataKey k' k ts)
  · exact fun k' ts' heq => absurd heq.symm (writeKey_ne_dataKey k' k ts' ts)

/-! ### The commands keep it. -/

theorem applyPrewrite (h : Readable db) (key value : Bytes) (op : UInt8) (startTs : UInt64)
    {primary : Bytes} (hprimary : primary.length < 2 ^ 32) (wallMs : UInt64) :
    Readable (Codec.applyPrewrite db key value op startTs primary wallMs).2 := by
  have hlocked := h.insertLock key
    (show (⟨startTs, op, wallMs, primary⟩ : LockRecord).primary.length < 2 ^ 32 from hprimary)
  unfold Codec.applyPrewrite
  split
  · exact h
  · split
    · exact h
    · split
      · exact h
      · split
        · exact h
        · split <;> exact h
        · dsimp only
          split
          · exact hlocked.insertData key startTs value
          · exact hlocked

theorem applyCommit (h : Readable db) (key : Bytes) (startTs commitTs : UInt64) :
    Readable (Codec.applyCommit db key startTs commitTs).2 := by
  unfold Codec.applyCommit
  split
  · exact h
  · split
    · split
      · exact h
      · split_ifs <;> exact h
    · rename_i lock _
      have hkind : 1 ≤ (if lock.op = 2 then kWriteDelete else kWritePut) ∧
          (if lock.op = 2 then kWriteDelete else kWritePut) ≤ 3 := by
        split_ifs <;> decide
      exact (h.insertWrite key commitTs hkind.1 hkind.2).erase (lockKey key)

theorem applyRollback (h : Readable db) (key : Bytes) (startTs : UInt64) :
    Readable (Codec.applyRollback db key startTs).2 := by
  have hunlocked : ∀ lock, Readable (unlock db key startTs lock) := by
    intro lock
    unfold unlock
    split
    · exact (h.erase (lockKey key)).erase (dataKey key startTs)
    · exact h
  unfold Codec.applyRollback
  split
  · exact h
  · split
    · exact h
    · split
      · exact h
      · dsimp only
        split
        · exact hunlocked _
        · have hlow : 1 ≤ kWriteRollback := by decide
          have hhigh : kWriteRollback ≤ 3 := by decide
          exact (hunlocked _).insertWrite key startTs hlow hhigh

theorem applyTxn (h : Readable db) (cmd : TxnCommand) : Readable (Codec.applyTxn db cmd).2 := by
  unfold Codec.applyTxn
  split
  · dsimp only
    split_ifs
    · exact h
    · -- a decoded primary key is shorter than 2^32 bytes
      exact h.applyPrewrite cmd.key _ _ _ (Decoder.length_lengthPrefixed _) _
  · dsimp only
    split_ifs
    · exact h
    · exact h.applyCommit cmd.key _ _
  · dsimp only
    split_ifs
    · exact h
    · exact h.applyRollback cmd.key _
  · exact h

theorem applyTxns (h : Readable db) (cmds : List TxnCommand) : Readable (Codec.applyTxns db cmds) := by
  induction cmds generalizing db with
  | nil => exact h
  | cons cmd cmds ih => exact ih (h.applyTxn cmd)

end Readable

/-! ## What a walk over a column visits. -/

/-- The user key of a pair in the column of a prefix. -/
def columnKey (p key : Bytes) : Option Bytes :=
  if key.take 2 = p then (unescapeKey (key.drop 2)).map Prod.fst else none

/-- Half-open ranges of user keys, with no upper bound where the end is empty. -/
def InRange (start endKey userKey : Bytes) : Prop :=
  start ≤ userKey ∧ (endKey = [] ∨ userKey < endKey)

instance (start endKey userKey : Bytes) : Decidable (InRange start endKey userKey) :=
  inferInstanceAs (Decidable (start ≤ userKey ∧ (endKey = [] ∨ userKey < endKey)))

/-- All keys of the column have the escaped form. -/
def ColumnFormed (db : DB) (p : Bytes) : Prop :=
  p.length = 2 ∧
    ∀ {key v}, db.get? key = some v → key.take 2 = p → ∃ k s, key = p ++ escapeKey k ++ s

theorem Formed.lockColumn (h : Formed db) : ColumnFormed db kLockPrefix :=
  ⟨rfl, fun hget htake => by
    obtain ⟨k, hk⟩ := h.lock hget htake
    exact ⟨k, [], by rw [hk, append_nil]; rfl⟩⟩

theorem Formed.writeColumn (h : Formed db) : ColumnFormed db kWritePrefix :=
  ⟨rfl, fun hget htake => by
    obtain ⟨k, ts, hk⟩ := h.write hget htake
    exact ⟨k, invertedTs ts, hk⟩⟩

theorem Formed.dataColumn (h : Formed db) : ColumnFormed db kDataPrefix :=
  ⟨rfl, fun hget htake => by
    obtain ⟨k, ts, hk⟩ := h.data hget htake
    exact ⟨k, invertedTs ts, hk⟩⟩

theorem columnKey_append (hp : p.length = 2) (k s : Bytes) :
    columnKey p (p ++ escapeKey k ++ s) = some k := by
  unfold columnKey
  rw [append_assoc, take_left' hp, if_pos rfl, drop_left' hp, unescapeKey_append]
  rfl

theorem append_of_between {a x y : Bytes} (hlow : p ++ x ≤ a) (hhigh : a < p ++ y) :
    ∃ z, a = p ++ z := by
  induction p generalizing a with
  | nil => exact ⟨a, rfl⟩
  | cons c p ih =>
    cases a with
    | nil => exact absurd hlow (not_le.mpr (nil_lt_cons c _))
    | cons d a =>
      rw [cons_append] at hlow hhigh
      have hdc : d = c ∧ p ++ x ≤ a := by
        cases lt_or_eq_of_le hlow with
        | inl hlt =>
          cases cons_lt_cons_iff.mp hlt with
          | inl hcd =>
            cases cons_lt_cons_iff.mp hhigh with
            | inl hdc => exact absurd hdc (lt_asymm hcd)
            | inr hdc => exact absurd hdc.1 (ne_of_gt hcd)
          | inr hcd => exact ⟨hcd.1.symm, le_of_lt hcd.2⟩
        | inr heq => exact ⟨(List.cons.inj heq).1.symm, le_of_eq (List.cons.inj heq).2⟩
      have hhigh' : a < p ++ y := by
        cases cons_lt_cons_iff.mp hhigh with
        | inl hlt => exact absurd hdc.1 (ne_of_lt hlt)
        | inr h => exact h.2
      obtain ⟨z, hz⟩ := ih hdc.2 hhigh'
      exact ⟨z, by rw [hdc.1, hz, cons_append]⟩

/-- A walk over the column goes on: no other prefix, no key that is not escaped, and no user
key at or beyond the end. -/
def stays (p endKey : Bytes) (e : Bytes × Bytes) : Bool :=
  (columnKey p e.1).any (fun k => !beyond endKey k)

/-- The pairs that a walk over the column visits. -/
def visits (db : DB) (p start endKey : Bytes) : List (Bytes × Bytes) :=
  (db.seek (p ++ escapeBody start)).takeWhile (stays p endKey)

/-- The pairs of the column in the range. -/
def column (db : DB) (p start endKey : Bytes) : List (Bytes × Bytes) :=
  db.entries.filter (fun e => (columnKey p e.1).any (fun k => InRange start endKey k))

theorem not_beyond_iff {endKey k : Bytes} : (!beyond endKey k) = true ↔ endKey = [] ∨ k < endKey := by
  unfold beyond
  rw [Bool.not_eq_true', decide_eq_false_iff_not, not_and_or, not_not, not_le]

theorem stays_of_some {endKey k : Bytes} {e : Bytes × Bytes} (h : columnKey p e.1 = some k) :
    stays p endKey e = !beyond endKey k := by
  unfold stays
  rw [h]
  rfl

theorem stays_of_none {endKey : Bytes} {e : Bytes × Bytes} (h : columnKey p e.1 = none) :
    stays p endKey e = false := by
  unfold stays
  rw [h]
  rfl

theorem visits_eq (h : ColumnFormed db p) (start endKey : Bytes) :
    visits db p start endKey = column db p start endKey := by
  have hform : ∀ e ∈ db.entries, e.1.take 2 = p → ∃ k s, e.1 = p ++ escapeKey k ++ s :=
    fun e he htake => h.2 (SortedMap.mem_entries.mp he) htake
  have hcol : ∀ e ∈ db.entries, ∀ k, columnKey p e.1 = some k →
      ∃ s, e.1 = p ++ escapeKey k ++ s := by
    intro e he k hk
    have htake : e.1.take 2 = p := by
      by_contra hne
      unfold columnKey at hk
      rw [if_neg hne] at hk
      cases hk
    obtain ⟨k', s, hks⟩ := hform e he htake
    rw [hks, columnKey_append h.1] at hk
    exact ⟨s, by rw [hks, Option.some.inj hk]⟩
  unfold visits column
  rw [takeWhile_eq_filter (db.sorted_seek _), seek_eq_filter, filter_filter]
  · apply filter_congr
    intro e he
    cases hk : columnKey p e.1 with
    | none =>
      rw [stays_of_none hk]
      rfl
    | some k =>
      rw [stays_of_some hk]
      obtain ⟨s, hs⟩ := hcol e he k hk
      have hstart : p ++ escapeBody start ≤ e.1 ↔ start ≤ k := by
        rw [hs, append_assoc, ← not_lt, append_lt_append_iff, not_lt, escapeBody_le_iff]
      have hbound := @not_beyond_iff endKey k
      show (!beyond endKey k && decide (p ++ escapeBody start ≤ e.1)) =
        decide (start ≤ k ∧ (endKey = [] ∨ k < endKey))
      rw [Bool.eq_iff_iff, Bool.and_eq_true, hbound, decide_eq_true_iff, decide_eq_true_iff,
        hstart, and_comm]
  · -- a pair before one of the column is of the column, with no greater user key
    intro a ha b hb hlt hpb
    rw [seek_eq_filter, mem_filter] at ha hb
    obtain ⟨kb, hkb, hend⟩ := any_eq_true _ _ |>.mp hpb
    obtain ⟨sb, hsb⟩ := hcol b hb.1 kb hkb
    have hlow : p ++ escapeBody start ≤ a.1 := of_decide_eq_true ha.2
    have hhigh : a.1 < p ++ (escapeKey kb ++ sb) := by
      rw [← append_assoc, ← hsb]
      exact hlt
    obtain ⟨z, hz⟩ := append_of_between hlow hhigh
    obtain ⟨ka, sa, hsa⟩ := hform a ha.1 (by rw [hz, take_left' h.1])
    have hka : columnKey p a.1 = some ka := by rw [hsa, columnKey_append h.1]
    have hle : ka ≤ kb := by
      by_contra hgt
      have hne : kb ≠ ka := ne_of_lt (not_le.mp hgt)
      have habove := (escapeKey_lt_iff hne sb sa).mpr (not_le.mp hgt)
      rw [hsa, append_assoc, append_lt_append_iff] at hhigh
      exact absurd habove (lt_asymm hhigh)
    rw [stays_of_some hka]
    exact not_beyond_iff.mpr ((not_beyond_iff.mp hend).imp id (lt_of_le_of_lt hle))

/-! ## The pairs of a column. -/

section Column

variable {db : DB}

variable {e : Bytes × Bytes} {endKey start : Bytes}

theorem mem_column {p : Bytes} (h : ColumnFormed db p) :
    e ∈ column db p start endKey ↔
      ∃ k s, e.1 = p ++ escapeKey k ++ s ∧ InRange start endKey k ∧ db.get? e.1 = some e.2 := by
  unfold column
  rw [mem_filter, any_eq_true]
  constructor
  · rintro ⟨hmem, k, hk, hin⟩
    have hget := SortedMap.mem_entries.mp hmem
    have htake : e.1.take 2 = p := by
      by_contra hne
      unfold columnKey at hk
      rw [if_neg hne] at hk
      cases hk
    obtain ⟨k', s, hks⟩ := h.2 hget htake
    rw [hks, columnKey_append h.1] at hk
    rw [Option.some.inj hk] at hks
    exact ⟨k, s, hks, of_decide_eq_true hin, hget⟩
  · rintro ⟨k, s, hks, hin, hget⟩
    exact ⟨SortedMap.mem_entries.mpr hget, k, by rw [hks, columnKey_append h.1], decide_eq_true hin⟩

theorem sorted_column (p start endKey : Bytes) :
    (column db p start endKey).Pairwise (fun a b => a.1 < b.1) := db.sorted.filter _

theorem mem_lockColumn (h : Formed db) :
    e ∈ column db kLockPrefix start endKey ↔
      ∃ k, e.1 = lockKey k ∧ InRange start endKey k ∧ db.get? (lockKey k) = some e.2 := by
  rw [mem_column h.lockColumn]
  constructor
  · rintro ⟨k, s, hks, hin, hget⟩
    obtain ⟨k', hk'⟩ := h.lock hget (by rw [hks, append_assoc]; rfl)
    have heq : kLockPrefix ++ escapeKey k' = kLockPrefix ++ escapeKey k ++ s := hk'.symm.trans hks
    rw [append_assoc] at heq
    have heq := append_cancel_left heq
    rw [← append_nil (escapeKey k')] at heq
    have hk := (escapeKey_append_inj heq).1
    rw [hk] at hk'
    exact ⟨k, hk', hin, hk' ▸ hget⟩
  · rintro ⟨k, hk, hin, hget⟩
    exact ⟨k, [], by rw [hk, append_nil]; rfl, hin, hk ▸ hget⟩

theorem mem_stampedColumn {p : Bytes} (hp : p.length = 2)
    (h : ∀ {key v}, db.get? key = some v → key.take 2 = p →
      ∃ k ts, key = p ++ escapeKey k ++ invertedTs ts) :
    e ∈ column db p start endKey ↔
      ∃ k ts, e.1 = p ++ escapeKey k ++ invertedTs ts ∧ InRange start endKey k ∧
        db.get? e.1 = some e.2 := by
  have hform : ColumnFormed db p := ⟨hp, fun hget htake => by
    obtain ⟨k, ts, hk⟩ := h hget htake
    exact ⟨k, invertedTs ts, hk⟩⟩
  rw [mem_column hform]
  constructor
  · rintro ⟨k, s, hks, hin, hget⟩
    obtain ⟨k', ts, hk'⟩ := h hget (by rw [hks, append_assoc, take_left' hp])
    have heq := hk'.symm.trans hks
    rw [append_assoc, append_assoc] at heq
    have hk := (escapeKey_append_inj (append_cancel_left heq)).1
    rw [hk] at hk'
    exact ⟨k, ts, hk', hin, hget⟩
  · rintro ⟨k, ts, hk, hin, hget⟩
    exact ⟨k, invertedTs ts, hk, hin, hget⟩

theorem mem_writeColumn (h : Formed db) :
    e ∈ column db kWritePrefix start endKey ↔
      ∃ k ts, e.1 = writeKey k ts ∧ InRange start endKey k ∧ db.get? e.1 = some e.2 :=
  mem_stampedColumn rfl h.write

theorem mem_dataColumn (h : Formed db) :
    e ∈ column db kDataPrefix start endKey ↔
      ∃ k ts, e.1 = dataKey k ts ∧ InRange start endKey k ∧ db.get? e.1 = some e.2 :=
  mem_stampedColumn rfl h.data

end Column

/-! ## Raw walks. -/

/-- The pairs that a walk over all keys visits, from `SeekToFirst` or `Seek` on, before it meets
a key at or beyond the end. -/
def rawVisits (db : DB) (start endKey : Bytes) : List (Bytes × Bytes) :=
  (if start = [] then db.entries else db.seek start).takeWhile (fun e => !beyond endKey e.1)

theorem rawVisits_eq (db : DB) (start endKey : Bytes) :
    rawVisits db start endKey = db.entries.filter (fun e => InRange start endKey e.1) := by
  have hfirst : (if start = [] then db.entries else db.seek start) = db.seek start := by
    by_cases hnil : start = []
    · have hall : ∀ e ∈ db.entries, decide (start ≤ e.1) = true := by
        intro e _
        rw [hnil]
        exact decide_eq_true (not_lt.mp (not_lt_nil e.1))
      rw [if_pos hnil, seek_eq_filter, filter_eq_self.mpr hall]
    · exact if_neg hnil
  unfold rawVisits
  rw [hfirst, takeWhile_eq_filter (db.sorted_seek start), seek_eq_filter, filter_filter]
  · apply filter_congr
    intro e _
    rw [Bool.eq_iff_iff, Bool.and_eq_true, not_beyond_iff, decide_eq_true_iff, decide_eq_true_iff,
      and_comm]
    rfl
  · intro a _ b _ hlt hb
    exact not_beyond_iff.mpr ((not_beyond_iff.mp hb).imp id fun hend => lt_trans hlt hend)

end Flotilla.Txn.Codec
