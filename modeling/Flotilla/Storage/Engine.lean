/-
  Storage.Engine — the steps of the engine on its disk.

  Every step makes at most one durable change: a record is appended to the log, a
  table file is made, written or finished, the manifest is replaced, a file is
  removed or cut.
-/
import Flotilla.Lib.Machine
import Flotilla.Storage.Db

namespace Flotilla.Storage

/-! ## Writes. -/

inductive Write where
  | put (key : Key) (value : Bytes)
  | delete (key : Key)
  deriving DecidableEq

def Write.entry (seqno : Nat) : Write → Entry
  | .put key value => ⟨key, seqno, .put, value⟩
  | .delete key => ⟨key, seqno, .delete, []⟩

/-! ## Recovery. -/

inductive Mode where
  | closed
  | opened (db : Db)
  | failed

/-- `Recover` as far as the first file that it deletes. -/
def Db.recover (disk : Disk) : Mode :=
  let md := disk.manifest.getD {}
  match loadVersion disk md with
  | none => .failed
  | some v =>
      let live := md.files.map fun m => m.number
      let wals := disk.wals.numbers.insertionSort (· ≤ ·)
      .opened
        { nextFile := max md.nextFile (disk.numbers.foldl max 0 + 1)
          lastSeq := md.lastSeq
          version := v
          stage := .scan (disk.ssts.numbers.filter fun n => n ∉ live) wals wals }

/-- No number of a file on the disk is given out again. -/
theorem Db.recover_nextFile {disk : Disk} {db : Db} (h : recover disk = .opened db) :
    ∀ n ∈ disk.numbers, n < db.nextFile := by
  simp only [recover] at h
  split at h
  · cases h
  · cases h
    intro n hn
    have hle := (@le_foldl_max Nat Nat _ id 0 disk.numbers).2 n hn
    exact lt_max_of_lt_right (Nat.lt_succ_of_le hle)

/-! ## Steps of `Recover` and of the background thread. -/

inductive Action where
  | removeFile
  | replayWal
  | build
  | openTable
  | writeTable (size : Nat)
  | closeTable
  | install
  | resume
  | switchMemtable

namespace Db

variable (opts : Options) (disk : Disk) (db : Db)

def removeFile : Option (Disk × Mode) :=
  match db.stage with
  | .scan (n :: orphans) todo wals =>
      some ({ disk with ssts := disk.ssts.remove n },
        .opened { db with stage := .scan orphans todo wals })
  | .remove recovering (n :: wals) ssts =>
      some ({ disk with wals := disk.wals.remove n },
        .opened { db with stage := .remove recovering wals ssts })
  | .remove recovering [] (n :: ssts) =>
      some ({ disk with ssts := disk.ssts.remove n },
        .opened { db with stage := .remove recovering [] ssts })
  | _ => none

/-- `RecoverWal` on the next log: its entries are added, and the file is cut behind them. -/
def replayWal : Option (Disk × Mode) :=
  match db.stage with
  | .scan [] (n :: todo) wals =>
      let data := (disk.wals.read n).getD []
      let recovered := recoverWal data
      some ({ disk with wals := disk.wals.write n (data.take recovered.2) },
        .opened { db with
          mem := recovered.1.foldl MemTable.add db.mem
          lastSeq := recovered.1.foldl (fun s e => max s e.seqno) db.lastSeq
          stage := .scan [] todo wals })
  | _ => none

/-- The next thing to build: the replayed memtable, the oldest immutable one, or a compaction. -/
def build : Option (Disk × Mode) :=
  match db.stage with
  | .scan [] [] wals =>
      some (disk, .opened { db with
        stage := .build (.recover wals)
          (buildTables opts 0 db.version noLimit db.mem.entries) none [] })
  | .idle =>
      match db.imm with
      | i :: _ =>
          some (disk, .opened { db with
            stage := .build .flush (buildTables opts 0 db.version noLimit i.mem.entries) none [] })
      | [] =>
          match pickCompaction opts db.version db.compactPtr with
          | .nothing => none
          | .undefined => some (disk, .failed)
          | .found c compactPtr =>
              some (disk, .opened { db with
                compactPtr := compactPtr
                stage := .build (.compact c) (c.tables opts db.version) none [] })
  | _ => none

/-- A number is taken and an empty file made. -/
def openTable : Option (Disk × Mode) :=
  match db.stage with
  | .build task (es :: tables) none outputs =>
      some ({ disk with ssts := disk.ssts.write db.nextFile [] },
        .opened { db with
          nextFile := db.nextFile + 1
          stage := .build task (es :: tables) (some db.nextFile) outputs })
  | _ => none

/-- Some of the file has been written. -/
def writeTable (size : Nat) : Option (Disk × Mode) :=
  match db.stage with
  | .build _ (es :: _) (some n) _ =>
      some ({ disk with ssts := disk.ssts.write n ((buildTable opts.table es).1.take size) },
        .opened db)
  | _ => none

/-- `Finish`, then `Table::Open`; where that fails the database is in error. -/
def closeTable : Option (Disk × Mode) :=
  match db.stage with
  | .build task (es :: tables) (some n) outputs =>
      let built := buildTable opts.table es
      let disk := { disk with ssts := disk.ssts.write n built.1 }
      match disk.openSst n with
      | none => some (disk, .failed)
      | some t =>
          let info := { built.2 with number := n, level := task.outputLevel }
          some (disk, .opened { db with
            stage := .build task tables none (outputs ++ [⟨info, t⟩]) })
  | _ => none

/-- `SaveManifest` and the new version. -/
def install : Option (Disk × Mode) :=
  match db.stage with
  | .build task [] none outputs =>
      let nv := newVersion db.version task outputs
      let disk := { disk with
        manifest := some ⟨db.nextFile, db.lastSeq, nv.flatten.map TableHandle.tableMeta⟩ }
      match task with
      | .recover wals =>
          some (disk, .opened { db with version := nv, mem := {}, stage := .remove true wals [] })
      | .flush =>
          match db.imm with
          | [] => none
          | i :: imm =>
              some (disk, .opened { db with
                version := nv, imm := imm, stage := .remove false [i.walNumber] [] })
      | .compact c =>
          some (disk, .opened { db with version := nv, stage := .remove false [] c.gone })
  | _ => none

/-- Everything is removed.  `Recover` makes its log and returns. -/
def resume : Option (Disk × Mode) :=
  match db.stage with
  | .remove true [] [] =>
      some ({ disk with wals := disk.wals.write db.nextFile [] },
        .opened { db with
          walNumber := db.nextFile, nextFile := db.nextFile + 1, stage := .idle })
  | .remove false [] [] => some (disk, .opened { db with stage := .idle })
  | _ => none

/-- `SwitchMemtable`: a new log and a new memtable. -/
def switch : Disk × Db :=
  ({ disk with wals := disk.wals.write db.nextFile [] },
    { db with
      imm := db.imm ++ [⟨db.mem, db.walNumber⟩]
      mem := {}
      walNumber := db.nextFile
      nextFile := db.nextFile + 1 })

/-- What `Flush` does before it waits. -/
def switchMemtable : Option (Disk × Mode) :=
  if db.unlocked ∧ 0 < db.mem.count then
    some ((db.switch disk).1, .opened (db.switch disk).2)
  else none

def advance : Action → Option (Disk × Mode)
  | .removeFile => db.removeFile disk
  | .replayWal => db.replayWal disk
  | .build => db.build opts disk
  | .openTable => db.openTable disk
  | .writeTable size => db.writeTable opts disk size
  | .closeTable => db.closeTable opts disk
  | .install => db.install disk
  | .resume => db.resume disk
  | .switchMemtable => db.switchMemtable disk

/-! ## Writing. -/

/-- `WriteImpl` does not wait. -/
def accepts : Bool := db.unlocked && db.imm.length < 2

/-- `WriteImpl`: record, memtable, and a new memtable when this one is full. -/
def write (w : Write) : Disk × Db :=
  let e := w.entry (db.lastSeq + 1)
  let disk := disk.appendWal db.walNumber (walRecord e)
  let db := { db with lastSeq := e.seqno, mem := db.mem.add e }
  if opts.writeBufferSize ≤ db.mem.approximateBytes then db.switch disk else (disk, db)

end Db

end Flotilla.Storage
