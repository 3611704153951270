/-
  Txn.Records — the state-machine side of the transaction protocol,
  `txn/codec.h` and `txn/txn_ops.cc`.

  The transactional keyspace is read and written through three kinds of
  records; here they are three columns.  The write column of a key lists its
  records newest first, as iterating from `WriteKey(key, UINT64_MAX)` meets
  them.  Every operation is a status and the list of database writes it makes,
  in order.

  Reading guide:
    * 64-bit timestamps are `Nat`;
    * the databases never fail here: a failing one is fatal to the node.
-/
import Flotilla.Common

namespace Flotilla.Txn

/-! ## Records and columns. -/

abbrev Key := Bytes

/-- `LockRecord::op`: 1 put, 2 delete. -/
inductive WriteOp where
  | put
  | delete
  deriving DecidableEq, Repr

structure LockRecord where
  startTs : Nat
  op : WriteOp
  wallMs : Nat
  primary : Key
  deriving DecidableEq

inductive WriteKind where
  | put
  | delete
  | rollback
  deriving DecidableEq, Repr

structure WriteRecord where
  kind : WriteKind
  startTs : Nat
  deriving DecidableEq

structure Store where
  /-- `"!l" + ekey` -/
  lock : Key → Option LockRecord := fun _ => none
  /-- `"!w" + ekey + ~commit_ts`, newest first -/
  writes : Key → List (Nat × WriteRecord) := fun _ => []
  /-- `"!d" + ekey + ~start_ts` -/
  data : Key → Nat → Option Bytes := fun _ _ => none

/-- One call of `db->Put` or `db->Delete`. -/
inductive DbWrite where
  | putLock (key : Key) (lock : LockRecord)
  | deleteLock (key : Key)
  | putWrite (key : Key) (commitTs : Nat) (rec : WriteRecord)
  | putData (key : Key) (startTs : Nat) (value : Bytes)
  | deleteData (key : Key) (startTs : Nat)

/-- A put into the write column: a new slot in its place, or the old slot replaced. -/
def insertWrite (commitTs : Nat) (rec : WriteRecord) :
    List (Nat × WriteRecord) → List (Nat × WriteRecord)
  | [] => [(commitTs, rec)]
  | (c, r) :: rest =>
      if c < commitTs then (commitTs, rec) :: (c, r) :: rest
      else if c = commitTs then (commitTs, rec) :: rest
      else (c, r) :: insertWrite commitTs rec rest

namespace Store

def apply (db : Store) : DbWrite → Store
  | .putLock key lock => { db with lock := Function.update db.lock key (some lock) }
  | .deleteLock key => { db with lock := Function.update db.lock key none }
  | .putWrite key commitTs rec =>
      let column := insertWrite commitTs rec (db.writes key)
      { db with writes := Function.update db.writes key column }
  | .putData key startTs value =>
      let column := Function.update (db.data key) startTs (some value)
      { db with data := Function.update db.data key column }
  | .deleteData key startTs =>
      let column := Function.update (db.data key) startTs none
      { db with data := Function.update db.data key column }

end Store

/-! ## Walking the write column. -/

/-- `ForEachWriteAtOrBelow(db, key, UINT64_MAX, fn)`: the callback updates what it
captured and says whether to continue. -/
def forEachWrite {σ : Type} (fn : σ → Nat → WriteRecord → σ × Bool) :
    σ → List (Nat × WriteRecord) → σ
  | s, [] => s
  | s, (commitTs, rec) :: rest =>
      if (fn s commitTs rec).2 then forEachWrite fn (fn s commitTs rec).1 rest
      else (fn s commitTs rec).1

/-- The walk of `ApplyPrewrite`: the newest commit, and whether a rollback marker of
`startTs` was met. -/
def conflictScan (startTs : Nat) (writes : List (Nat × WriteRecord)) : Nat × Bool :=
  forEachWrite
    (fun s commitTs rec =>
      if rec.kind = .rollback then
        ((s.1, s.2 || decide (rec.startTs = startTs)), decide (startTs < commitTs))
      else ((max s.1 commitTs, s.2), false))
    (0, false) writes

/-- `FindTxnOutcome`: the commit timestamp of the transaction, 0 if none, and whether
its rollback marker was met. -/
def findTxnOutcome (startTs : Nat) (writes : List (Nat × WriteRecord)) : Nat × Bool :=
  forEachWrite
    (fun s commitTs rec =>
      if rec.startTs = startTs then
        (if rec.kind = .rollback then (s.1, true) else (commitTs, s.2), false)
      -- newest first: stop once below `startTs`
      else (s, decide (startTs < commitTs)))
    (0, false) writes

/-! ## Prewrite, commit, rollback. -/

namespace Store

def applyPrewrite (db : Store) (key : Key) (value : Bytes) (op : WriteOp) (startTs : Nat)
    (primary : Key) (wallMs : Nat) : Status × List DbWrite :=
  let scan := conflictScan startTs (db.writes key)
  if scan.2 then (⟨.aborted, text "transaction rolled back"⟩, [])
  else if startTs ≤ scan.1 then
    (⟨.conflict, text "write conflict: committed at " ++ decimal scan.1⟩, [])
  else
    match db.lock key with
    | some existing =>
        if existing.startTs = startTs then ({}, [])  -- replayed prewrite
        else (⟨.conflict, text "locked by txn " ++ decimal existing.startTs ++ text " primary " ++
          existing.primary⟩, [])
    | none =>
        ({}, .putLock key ⟨startTs, op, wallMs, primary⟩ ::
          if op = .put then [.putData key startTs value] else [])

def applyCommit (db : Store) (key : Key) (startTs commitTs : Nat) : Status × List DbWrite :=
  match (db.lock key).filter (fun lock => lock.startTs = startTs) with
  | none =>
      -- replayed commit or lost lock: consult history
      let outcome := findTxnOutcome startTs (db.writes key)
      if outcome.1 ≠ 0 then ({}, [])
      else if outcome.2 then (⟨.aborted, text "transaction rolled back"⟩, [])
      else (⟨.aborted, text "lock lost before commit"⟩, [])
  | some lock =>
      ({}, [.putWrite key commitTs ⟨if lock.op = .delete then .delete else .put, startTs⟩,
        .deleteLock key])

def applyRollback (db : Store) (key : Key) (startTs : Nat) : Status × List DbWrite :=
  let outcome := findTxnOutcome startTs (db.writes key)
  if outcome.1 ≠ 0 then (⟨.conflict, text "transaction already committed"⟩, [])
  else
    let unlock : List DbWrite :=
      match (db.lock key).filter (fun lock => lock.startTs = startTs) with
      | some _ => [.deleteLock key, .deleteData key startTs]
      | none => []
    -- a rollback marker uses `start_ts` as its commit slot
    ({}, unlock ++ if outcome.2 then [] else [.putWrite key startTs ⟨.rollback, startTs⟩])

end Store

/-! ## Reads. -/

structure TxnReadResult where
  found : Bool := false
  value : Bytes := []
  /-- `locked` and `lock` -/
  locked : Option LockRecord := none
  deriving DecidableEq

/-- The walk of `TxnGet`: `data_ts`, and whether the newest version is a deletion. -/
def versionScan (writes : List (Nat × WriteRecord)) : Nat × Bool :=
  forEachWrite
    (fun s _ rec =>
      match rec.kind with
      | .rollback => (s, true)
      | .delete => ((s.1, true), false)
      | .put => ((rec.startTs, s.2), false))
    (0, false) writes

/-- `TxnGet`: the walk starts at `WriteKey(key, ts)`. -/
def Store.txnGet (db : Store) (key : Key) (ts : Nat) : Status × TxnReadResult :=
  match (db.lock key).filter (fun lock => lock.startTs ≤ ts) with
  | some lock => ({}, { locked := some lock })
  | none =>
      let version := versionScan ((db.writes key).dropWhile (fun w => ts < w.1))
      if version.2 = true ∨ version.1 = 0 then ({}, {})
      else
        match db.data key version.1 with
        | none => (⟨.corruption, text "missing data record"⟩, {})
        | some value => ({}, { found := true, value := value })

/-! ## Commands. -/

/-- A state-machine command of ops 4 to 6. -/
inductive Command where
  | prewrite (key : Key) (value : Bytes) (op : WriteOp) (startTs : Nat) (primary : Key)
      (wallMs : Nat)
  | commit (key : Key) (startTs commitTs : Nat)
  | rollback (key : Key) (startTs : Nat)

namespace Command

/-- `ApplyCommand` on ops 4 to 6. -/
def apply (db : Store) : Command → Status × List DbWrite
  | .prewrite key value op startTs primary wallMs =>
      db.applyPrewrite key value op startTs primary wallMs
  | .commit key startTs commitTs => db.applyCommit key startTs commitTs
  | .rollback key startTs => db.applyRollback key startTs

end Command

namespace Store

def exec (db : Store) (cmd : Command) : Store := (cmd.apply db).2.foldl Store.apply db

/-- The state after the first `cut` database writes of a command. -/
def execUpTo (db : Store) (cmd : Command) (cut : Nat) : Store :=
  ((cmd.apply db).2.take cut).foldl Store.apply db

/-- The key carries a commit record of the transaction, at `commitTs`. -/
def CommittedAt (db : Store) (key : Key) (startTs commitTs : Nat) : Prop :=
  ∃ w ∈ db.writes key, w.1 = commitTs ∧ w.2.startTs = startTs ∧ w.2.kind ≠ .rollback

/-- The key carries a commit record of the transaction. -/
def Committed (db : Store) (key : Key) (startTs : Nat) : Prop :=
  ∃ w ∈ db.writes key, w.2.startTs = startTs ∧ w.2.kind ≠ .rollback

/-- The key carries a rollback marker of the transaction. -/
def RolledBack (db : Store) (key : Key) (startTs : Nat) : Prop :=
  ∃ w ∈ db.writes key, w.2.startTs = startTs ∧ w.2.kind = .rollback

instance (db : Store) (key : Key) (startTs : Nat) : Decidable (db.Committed key startTs) :=
  inferInstanceAs (Decidable (∃ w ∈ db.writes key, w.2.startTs = startTs ∧ w.2.kind ≠ .rollback))

instance (db : Store) (key : Key) (startTs : Nat) : Decidable (db.RolledBack key startTs) :=
  inferInstanceAs (Decidable (∃ w ∈ db.writes key, w.2.startTs = startTs ∧ w.2.kind = .rollback))

end Store

/-! ## Other keys. -/

def DbWrite.key : DbWrite → Key
  | .putLock key _ => key
  | .deleteLock key => key
  | .putWrite key _ _ => key
  | .putData key _ _ => key
  | .deleteData key _ => key

/-- The one key that a command reads and writes. -/
def Command.key : Command → Key
  | .prewrite key _ _ _ _ _ => key
  | .commit key _ _ => key
  | .rollback key _ => key

theorem Command.key_of_mem_apply {db : Store} {cmd : Command} {w : DbWrite}
    (hw : w ∈ (cmd.apply db).2) : w.key = cmd.key := by
  cases cmd with
  | prewrite k value op startTs primary wallMs =>
    simp only [Command.apply, Store.applyPrewrite] at hw
    split at hw
    · cases hw
    · split at hw
      · cases hw
      · split at hw
        · split at hw <;> cases hw
        · cases op with
          | put =>
            simp only [if_true, mem_cons, not_mem_nil, or_false] at hw
            rcases hw with rfl | rfl <;> rfl
          | delete =>
            simp only [reduceCtorEq, if_false, mem_singleton] at hw
            rw [hw]
            rfl
  | commit k startTs commitTs =>
    simp only [Command.apply, Store.applyCommit] at hw
    split at hw
    · split at hw
      · cases hw
      · split at hw <;> cases hw
    · simp only [mem_cons, not_mem_nil, or_false] at hw
      rcases hw with rfl | rfl <;> rfl
  | rollback k startTs =>
    simp only [Command.apply, Store.applyRollback] at hw
    split at hw
    · cases hw
    · rcases mem_append.mp hw with hw | hw
      · split at hw
        · simp only [mem_cons, not_mem_nil, or_false] at hw
          rcases hw with rfl | rfl <;> rfl
        · cases hw
      · split at hw
        · cases hw
        · rw [mem_singleton.mp hw]
          rfl

theorem Store.apply_of_ne {key : Key} {w : DbWrite} (hne : key ≠ w.key) (db : Store) :
    (db.apply w).lock key = db.lock key ∧ (db.apply w).writes key = db.writes key ∧
      (db.apply w).data key = db.data key := by
  cases w with
  | putLock k l | deleteLock k => exact ⟨update_of_ne hne .., rfl, rfl⟩
  | putWrite k c r => exact ⟨rfl, update_of_ne hne .., rfl⟩
  | putData k s value | deleteData k s => exact ⟨rfl, rfl, update_of_ne hne ..⟩

theorem Store.foldl_apply_of_ne {key : Key} (writes : List DbWrite)
    (hne : ∀ w ∈ writes, key ≠ w.key) (db : Store) :
    (writes.foldl Store.apply db).lock key = db.lock key ∧
      (writes.foldl Store.apply db).writes key = db.writes key ∧
      (writes.foldl Store.apply db).data key = db.data key := by
  induction writes generalizing db with
  | nil => exact ⟨rfl, rfl, rfl⟩
  | cons w writes ih =>
    obtain ⟨hlock, hwrites, hdata⟩ := ih (fun v hv => hne v (mem_cons_of_mem w hv)) (db.apply w)
    obtain ⟨hlock', hwrites', hdata'⟩ := Store.apply_of_ne (hne w mem_cons_self) db
    exact ⟨hlock.trans hlock', hwrites.trans hwrites', hdata.trans hdata'⟩

theorem Store.exec_of_ne {key : Key} {cmd : Command} (db : Store) (hne : key ≠ cmd.key) :
    (db.exec cmd).lock key = db.lock key ∧ (db.exec cmd).writes key = db.writes key ∧
      (db.exec cmd).data key = db.data key :=
  foldl_apply_of_ne _ (fun _ hw heq => hne (heq.trans (Command.key_of_mem_apply hw))) db

end Flotilla.Txn
