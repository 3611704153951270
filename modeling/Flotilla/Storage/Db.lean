/-
  Storage.Db — the LSM engine, `storage/db.cc`.

  A database is a memtable with its log, immutable memtables that wait to be
  flushed, and a version: seven levels of tables.  The background thread turns
  memtables into tables of level 0 and merges tables into lower levels.

  File numbers and sequence numbers are natural numbers here.  A reader holds
  the tables it has opened, whatever happens to their files.
-/
import Flotilla.Lib.Files
import Flotilla.Storage.Memtable
import Flotilla.Storage.Sstable

namespace Flotilla.Storage

structure Options where
  writeBufferSize : Nat := 4 * 2 ^ 20
  blockSize : Nat := 4096
  bloomBitsPerKey : Nat := 10
  l0CompactionTrigger : Nat := 4
  levelBaseBytes : Nat := 8 * 2 ^ 20
  maxOutputFileBytes : Nat := 2 * 2 ^ 20

def Options.table (opts : Options) : TableOptions where
  blockSize := opts.blockSize
  bloomBitsPerKey := opts.bloomBitsPerKey

def kNumLevels : Nat := 7

/-! ## Versions. -/

structure TableHandle where
  tableMeta : TableMeta
  table : Table

namespace TableHandle

def number (h : TableHandle) : Nat := h.tableMeta.number

def smallest (h : TableHandle) : Key := h.tableMeta.smallest

def largest (h : TableHandle) : Key := h.tableMeta.largest

/-- What the iterator of the table returns. -/
def entries (h : TableHandle) : List Entry := h.table.newIterator

end TableHandle

abbrev Version := List (List TableHandle)

def Version.level (v : Version) (l : Nat) : List TableHandle := (v[l]?).getD []

def Version.empty : Version := List.replicate kNumLevels []

/-- Level 0 by number, newest first; the other levels by their smallest keys. -/
def sortLevel (level : Nat) (files : List TableHandle) : List TableHandle :=
  if level = 0 then files.insertionSort (fun a b => b.number ≤ a.number)
  else files.insertionSort (fun a b => a.smallest ≤ b.smallest)

structure ManifestData where
  nextFile : Nat := 1
  lastSeq : Nat := 0
  files : List TableMeta := []

structure Disk where
  manifest : Option ManifestData := none
  wals : Files Bytes := []
  ssts : Files Bytes := []

namespace Disk

def numbers (disk : Disk) : List Nat := disk.wals.numbers ++ disk.ssts.numbers

/-- `Table::Open` on the file of a number. -/
def openSst (disk : Disk) (number : Nat) : Option Table := (disk.ssts.read number).bind openTable

def appendWal (disk : Disk) (number : Nat) (bytes : Bytes) : Disk :=
  { disk with wals := disk.wals.write number ((disk.wals.read number).getD [] ++ bytes) }

end Disk

theorem le_foldl_max {α β : Type} [LinearOrder β] {f : α → β} {t : β} {xs : List α} :
    t ≤ xs.foldl (fun l x => max l (f x)) t ∧
      ∀ x ∈ xs, f x ≤ xs.foldl (fun l x => max l (f x)) t := by
  induction xs generalizing t with
  | nil => simp
  | cons y xs ih =>
    obtain ⟨ht, hall⟩ := @ih (max t (f y))
    refine ⟨(le_max_left _ _).trans ht, fun x hx => ?_⟩
    rcases mem_cons.mp hx with rfl | hx
    · exact (le_max_right _ _).trans ht
    · exact hall x hx

/-- One table of the manifest, with its level in range. -/
def openMeta (disk : Disk) (m : TableMeta) : Option TableHandle :=
  if m.level < kNumLevels then (disk.openSst m.number).map fun t => ⟨m, t⟩ else none

/-- The tables of the manifest, each at its level. -/
def loadVersion (disk : Disk) (md : ManifestData) : Option Version :=
  (md.files.mapM (openMeta disk)).map fun handles =>
    (List.range kNumLevels).map fun l =>
      sortLevel l (handles.filter fun h => h.tableMeta.level = l)

/-! ## The database. -/

structure ImmEntry where
  mem : MemTable
  walNumber : Nat

structure Compaction where
  outputLevel : Nat
  inputs : List TableHandle

/-- What tables are built for. -/
inductive Task where
  | recover (wals : List Nat)
  | flush
  | compact (c : Compaction)

def Task.outputLevel : Task → Nat
  | .recover _ => 0
  | .flush => 0
  | .compact c => c.outputLevel

/-- Where `Recover` or the background thread stands.

    * `scan` — `Recover` deletes what is left of a crash, then replays the logs;
    * `build` — tables are written, the first of `tables` under the number
      `current` once its file is there;
    * `remove` — the manifest is saved, and files are removed;
    * `idle` — the background thread has nothing at hand. -/
inductive Stage where
  | scan (orphans todo wals : List Nat)
  | build (task : Task) (tables : List (List Entry)) (current : Option Nat)
      (outputs : List TableHandle)
  | remove (recovering : Bool) (wals ssts : List Nat)
  | idle

structure Db where
  nextFile : Nat := 1
  lastSeq : Nat := 0
  mem : MemTable := {}
  walNumber : Nat := 0
  imm : List ImmEntry := []
  version : Version := Version.empty
  compactPtr : Nat → Nat := fun _ => 0
  stage : Stage

/-- `Open` has returned. -/
def Db.running (db : Db) : Bool :=
  match db.stage with
  | .scan _ _ _ => false
  | .build (.recover _) _ _ _ => false
  | .build _ _ _ _ => true
  | .remove recovering _ _ => !recovering
  | .idle => true

/-- Nobody holds the mutex for longer than a moment. -/
def Db.unlocked (db : Db) : Bool :=
  match db.stage with
  | .build (.recover _) _ _ _ => false
  | .build _ _ _ _ => true
  | .idle => true
  | _ => false

/-! ## Reading. -/

/-- What the reader is told of an entry. -/
def Entry.resolve (e : Entry) : Option Bytes :=
  match e.op with
  | .put => some e.value
  | .delete => none

/-- The one file of a level that may have the key: the first whose largest key is not below it. -/
def levelFile (files : List TableHandle) (key : Key) : Option TableHandle :=
  let lo := BinarySearch.search (fun lo hi => (lo + hi) / 2)
    (fun i => (files[i]?).any fun h => h.largest < key) (files.length + 1) 0 files.length
  (files[lo]?).filter fun h => h.smallest ≤ key

/-- The tables that `Get` asks: level 0 in its order, then one of each other level. -/
def Version.asked (v : Version) (key : Key) : List TableHandle :=
  v.level 0 ++ (v.drop 1).filterMap fun files => levelFile files key

def Version.find (v : Version) (key : Key) : Option Entry :=
  (v.asked key).findSome? fun h => h.table.get key

/-- What a reader is told that finds nothing in memory. -/
def Version.read (v : Version) (key : Key) : Option Bytes := (v.find key).bind Entry.resolve

namespace Db

/-- Memtable, immutable memtables from the newest on, then the tables. -/
def find (db : Db) (key : Key) : Option Entry :=
  (db.mem.get key).or <|
    (db.imm.reverse.findSome? fun i => i.mem.get key).or <| db.version.find key

def get (db : Db) (key : Key) : Option Bytes := (db.find key).bind Entry.resolve

end Db

/-! ## Building tables. -/

def keyMayExistBelow (v : Version) (belowLevel : Nat) (key : Key) : Bool :=
  (v.drop (belowLevel + 1)).any fun files => files.any fun h => h.smallest ≤ key ∧ key ≤ h.largest

/-- A deletion goes when it is compacted and no deeper level can have the key. -/
def dropsTombstone (outputLevel : Nat) (base : Version) (e : Entry) : Bool :=
  e.op = .delete ∧ 0 < outputLevel ∧ keyMayExistBelow base outputLevel e.key = false

/-- The entries of every table: one is finished when `maxBytes` are reached.  `b` is the builder
of the entries `es`. -/
def cutTables (opts : TableOptions) (maxBytes : Nat) (b : TableBuilder) (es : List Entry) :
    List Entry → List (List Entry)
  | [] => if es = [] then [] else [es]
  | e :: rest =>
      if maxBytes ≤ (b.add opts e).bytesWritten then
        (es ++ [e]) :: cutTables opts maxBytes {} [] rest
      else cutTables opts maxBytes (b.add opts e) (es ++ [e]) rest

/-- `BuildTableFromIterator`: the first entry of every key, without deletions that can go. -/
def buildTables (opts : Options) (outputLevel : Nat) (base : Version) (maxBytes : Nat)
    (es : List Entry) : List (List Entry) :=
  cutTables opts.table maxBytes {} []
    ((SortedRuns.firsts es).filter fun e => !dropsTombstone outputLevel base e)

/-- `UINT64_MAX`. -/
def noLimit : Nat := 2 ^ 64 - 1

/-! ## Picking a compaction. -/

def overlaps (smallest largest : Key) (h : TableHandle) : Bool :=
  smallest ≤ h.largest ∧ h.smallest ≤ largest

def maxLevelBytes (opts : Options) (level : Nat) : Nat :=
  (opts.levelBaseBytes * 10 ^ (level - 1)) % 2 ^ 64

/-- All of level 0, and what it overlaps of level 1; nothing where the code reads the first of no
inputs. -/
def pickLevel0 (v : Version) : Option Compaction :=
  match v.level 0 with
  | [] => none
  | h :: hs =>
      let smallest := hs.foldl (fun s x => min s x.smallest) h.smallest
      let largest := hs.foldl (fun l x => max l x.largest) h.largest
      some { outputLevel := 1
             inputs := (h :: hs) ++ (v.level 1).filter (overlaps smallest largest) }

/-- One file of a level that is too large, and what it overlaps of the next. -/
def pickLevel (opts : Options) (v : Version) (compactPtr : Nat → Nat) (level : Nat) :
    Option Compaction :=
  let files := v.level level
  if (files.map fun h => h.tableMeta.fileBytes).sum % 2 ^ 64 ≤ maxLevelBytes opts level then none
  else
    (files[compactPtr level % files.length]?).map fun pick =>
      { outputLevel := level + 1
        inputs := pick :: (v.level (level + 1)).filter (overlaps pick.smallest pick.largest) }

inductive Pick where
  | nothing
  | undefined
  | found (c : Compaction) (compactPtr : Nat → Nat)

def pickCompaction (opts : Options) (v : Version) (compactPtr : Nat → Nat) : Pick :=
  if opts.l0CompactionTrigger ≤ (v.level 0).length then
    match pickLevel0 v with
    | none => .undefined
    | some c => .found c compactPtr
  else
    match (List.range' 1 (kNumLevels - 2)).findSome? fun l =>
        (pickLevel opts v compactPtr l).map fun c => (l, c) with
    | none => .nothing
    | some (l, c) => .found c (Function.update compactPtr l (compactPtr l + 1))

/-! ## New versions. -/

def addToLevel0 (v : Version) (outputs : List TableHandle) : Version :=
  v.modify 0 fun files => sortLevel 0 (files ++ outputs)

def Compaction.gone (c : Compaction) : List Nat := c.inputs.map TableHandle.number

def compactVersion (v : Version) (c : Compaction) (outputs : List TableHandle) : Version :=
  v.mapIdx fun l files =>
    sortLevel l ((files.filter fun h => h.number ∉ c.gone) ++
      if l = c.outputLevel then outputs else [])

def newVersion (v : Version) (task : Task) (outputs : List TableHandle) : Version :=
  match task with
  | .recover _ => if outputs.isEmpty then v else addToLevel0 v outputs
  | .flush => addToLevel0 v outputs
  | .compact c => compactVersion v c outputs

/-- `finish_current` for every table, with numbers from `number` on; nothing where a table cannot
be opened. -/
def finishTables (opts : TableOptions) (level : Nat) : Nat → List (List Entry) →
    Option (List TableHandle)
  | _, [] => some []
  | number, es :: tables =>
      (openTable (buildTable opts es).1).bind fun t =>
        (finishTables opts level (number + 1) tables).map
          (⟨{ (buildTable opts es).2 with number := number, level := level }, t⟩ :: ·)

/-- What a compaction writes, table by table. -/
def Compaction.tables (opts : Options) (v : Version) (c : Compaction) : List (List Entry) :=
  buildTables opts c.outputLevel v opts.maxOutputFileBytes
    (SortedRuns.merge (c.inputs.map TableHandle.entries))

/-- `DoCompaction`: the version it installs and the next file number; nothing where it reports an
error. -/
def doCompaction (opts : Options) (v : Version) (nextFile : Nat) (c : Compaction) :
    Option (Version × Nat) :=
  (finishTables opts.table c.outputLevel nextFile (c.tables opts v)).map fun outputs =>
    (compactVersion v c outputs, nextFile + (c.tables opts v).length)

end Flotilla.Storage
