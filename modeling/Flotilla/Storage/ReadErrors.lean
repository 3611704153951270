/-
  Storage.ReadErrors — blocks that cannot be read.

  The iterator of a table has no status: a block whose `ReadBlock` fails ends the
  iteration, and a block whose bytes do not parse ends early, the next one
  following.  `Table::Get`, the merging iterator and `BuildTableFromIterator`
  cannot tell either from the end of a table.
-/
import Flotilla.Storage.Compaction

namespace Flotilla.Storage

open Table

/-! ## Faults. -/

/-- What happens to a block: `pread` fails, or other bytes come back. -/
inductive Fault where
  | failed
  | garbled (bytes : Bytes)

/-- By file number and place in the index. -/
abbrev Faults := Nat → Nat → Option Fault

def noFaults : Faults := fun _ _ => none

/-- `ReadBlock`, with what happens to the block. -/
def readBlockUnder (fault : Option Fault) (file : Bytes) (ie : IndexEntry) : Option Bytes :=
  match fault with
  | none => readBlock file ie.offset ie.size
  | some .failed => none
  | some (.garbled bytes) => some bytes

/-- All of the bytes are entries. -/
def parses : Nat → Bytes → Bool
  | 0, data => data = []
  | fuel + 1, data =>
      if data = [] then true
      else
        match parseEntry ⟨data, false⟩ with
        | (some _, dec) => parses fuel dec.rest
        | (none, _) => false

/-- The blocks of `B`, and no others, cannot be read: `ReadBlock` fails, or its bytes, as many as
the index says, do not parse. -/
structure FaultsOn (B : Set (Nat × Nat)) (v : Version) (faults : Faults) : Prop where
  blocks : ∀ n i, (faults n i).isSome ↔ (n, i) ∈ B
  garbled : ∀ h ∈ v.flatten, ∀ i ie bytes, h.table.index[i]? = some ie →
    faults h.number i = some (.garbled bytes) →
    bytes.length = ie.size ∧ parses (bytes.length + 1) bytes = false

/-! ## Reading a table. -/

namespace Table

/-- `iterBlocks` from the block `i` on. -/
def iterUnder (faults : Nat → Option Fault) (file : Bytes) (i : Nat) (index : List IndexEntry) :
    List Entry :=
  iterRead ((index.zipIdx i).map fun ie => readBlockUnder (faults ie.2) file ie.1)

def newIteratorUnder (faults : Nat → Option Fault) (t : Table) : List Entry :=
  iterUnder faults t.file 0 t.index

def seekUnder (faults : Nat → Option Fault) (t : Table) (key : Key) : List Entry :=
  let slot := t.findBlock key - 1
  (iterUnder faults t.file slot (t.index.drop slot)).dropWhile (fun e => e.key < key)

end Table

def orNotFound {α : Type} : Option α → Except Status α
  | some a => .ok a
  | none => .error { code := .notFound }

/-- `Table::Get`. -/
def Table.getUnder (faults : Nat → Option Fault) (t : Table) (key : Key) : Except Status Entry :=
  orNotFound <| if bloomMayContain t.bloom key then
    (t.seekUnder faults key).head?.filter (fun e => e.key = key) else none

/-! ## Reading the database. -/

/-- The next table is asked when this one says that the key is not found. -/
def askTables (faults : Faults) (key : Key) : List TableHandle → Except Status Entry
  | [] => .error { code := .notFound }
  | h :: hs =>
      match h.table.getUnder (faults h.number) key with
      | .ok e => .ok e
      | .error s => if s.isNotFound then askTables faults key hs else .error s

namespace Db

/-- The entry in memory, if there is one. -/
def inMemory (db : Db) (key : Key) : Option Entry :=
  (db.mem.get key).or (db.imm.reverse.findSome? fun i => i.mem.get key)

/-- `DB::Get`. -/
def getUnder (faults : Faults) (db : Db) (key : Key) : Except Status Bytes :=
  match db.inMemory key with
  | some e => orNotFound e.resolve
  | none =>
      match askTables faults key (db.version.asked key) with
      | .ok e => orNotFound e.resolve
      | .error s => .error s

end Db

/-! ## Compacting. -/

def TableHandle.entriesUnder (faults : Faults) (h : TableHandle) : List Entry :=
  h.table.newIteratorUnder (faults h.number)

def Compaction.tablesUnder (faults : Faults) (opts : Options) (v : Version) (c : Compaction) :
    List (List Entry) :=
  buildTables opts c.outputLevel v opts.maxOutputFileBytes
    (SortedRuns.merge (c.inputs.map (TableHandle.entriesUnder faults)))

/-- `DoCompaction`; nothing where `bg_error_` is set and the inputs stay. -/
def doCompactionUnder (faults : Faults) (opts : Options) (v : Version) (nextFile : Nat)
    (c : Compaction) : Option (Version × Nat) :=
  (finishTables opts.table c.outputLevel nextFile (c.tablesUnder faults opts v)).map fun outputs =>
    (compactVersion v c outputs, nextFile + (c.tablesUnder faults opts v).length)

/-! ## Without faults. -/

theorem Table.iterUnder_clean {faults : Nat → Option Fault} (h : ∀ i, faults i = none)
    (file : Bytes) (i : Nat) (index : List IndexEntry) :
    Table.iterUnder faults file i index = Table.iterBlocks file index := by
  have hread : ∀ ie : IndexEntry × Nat, readBlockUnder (faults ie.2) file ie.1 =
      readBlock file ie.1.offset ie.1.size := by
    intro ie
    rw [h]
    rfl
  unfold Table.iterUnder Table.iterBlocks
  conv_rhs => rw [← List.zipIdx_map_fst i index, map_map]
  simp only [hread]
  rfl

theorem Table.getUnder_clean (t : Table) (n : Nat) (key : Key) :
    t.getUnder (noFaults n) key = orNotFound (t.get key) := by
  have hclean : ∀ i, noFaults n i = none := fun _ => rfl
  unfold Table.getUnder Table.seekUnder Table.get Table.seek
  simp only [iterUnder_clean hclean]

theorem askTables_clean (key : Key) (hs : List TableHandle) :
    askTables noFaults key hs = orNotFound (hs.findSome? fun h => h.table.get key) := by
  induction hs with
  | nil => rfl
  | cons h hs ih =>
    unfold askTables
    rw [Table.getUnder_clean, List.findSome?_cons, ih]
    cases h.table.get key with
    | none | some e => rfl

theorem Db.getUnder_clean (db : Db) (key : Key) :
    db.getUnder noFaults key = orNotFound (db.get key) := by
  have hfind : db.find key = (db.inMemory key).or (db.version.find key) := by
    unfold Db.find Db.inMemory
    rw [Option.or_assoc]
  unfold Db.getUnder Db.get
  rw [askTables_clean, hfind]
  unfold Version.find
  cases db.inMemory key with
  | some e => rfl
  | none =>
    cases (db.version.asked key).findSome? fun h => h.table.get key with
    | none | some e => rfl

/-! ## The blocks that a lookup loads. -/

/-- `Seek` goes on: the block has entries, and all are below the key. -/
def Table.passes (key : Key) (block : List Entry) : Bool :=
  !block.isEmpty && block.all fun e => e.key < key

/-- The blocks, with their places, that `Seek` loads from the block `i` on: up to the first that has
a key from `key` on. -/
def Table.loads (file : Bytes) (key : Key) : Nat → List IndexEntry → List (Nat × IndexEntry)
  | _, [] => []
  | i, ie :: rest =>
      (i, ie) :: if Table.passes key (Table.blockEntries (readBlock file ie.offset ie.size))
        then Table.loads file key (i + 1) rest else []

structure LoadedBlock where
  table : TableHandle
  place : Nat
  entry : IndexEntry

/-- The file number and the place. -/
def LoadedBlock.id (b : LoadedBlock) : Nat × Nat := (b.table.number, b.place)

/-- The blocks that `Table::Get` loads. -/
def TableHandle.loads (h : TableHandle) (key : Key) : List LoadedBlock :=
  if bloomMayContain h.table.bloom key then
    (Table.loads h.table.file key (h.table.findBlock key - 1)
      (h.table.index.drop (h.table.findBlock key - 1))).map fun b => ⟨h, b.1, b.2⟩
  else []

/-- The blocks that the tables load until one has the key. -/
def tableLoads (key : Key) : List TableHandle → List LoadedBlock
  | [] => []
  | h :: hs => h.loads key ++ if (h.table.get key).isSome then [] else tableLoads key hs

/-- The blocks that `DB::Get` loads. -/
def Db.blocksRead (db : Db) (key : Key) : List LoadedBlock :=
  if (db.inMemory key).isSome then [] else tableLoads key (db.version.asked key)

/-- A block without an entry ends the iteration. -/
def Table.andThen (block rest : List Entry) : List Entry := if block = [] then [] else block ++ rest

theorem Table.iterRead_cons (block : Option Bytes) (rest : List (Option Bytes)) :
    Table.iterRead (block :: rest) =
      Table.andThen (Table.blockEntries block) (Table.iterRead rest) := by
  rw [Table.iterRead]
  cases Table.blockEntries block with
  | nil | cons e es => rfl

theorem Table.iterUnder_cons (faults : Nat → Option Fault) (file : Bytes) (i : Nat)
    (ie : IndexEntry) (rest : List IndexEntry) :
    Table.iterUnder faults file i (ie :: rest) =
      Table.andThen (Table.blockEntries (readBlockUnder (faults i) file ie))
        (Table.iterUnder faults file (i + 1) rest) :=
  iterRead_cons _ _

theorem Table.iterBlocks_cons (file : Bytes) (ie : IndexEntry) (rest : List IndexEntry) :
    Table.iterBlocks file (ie :: rest) =
      Table.andThen (Table.blockEntries (readBlock file ie.offset ie.size))
        (Table.iterBlocks file rest) :=
  iterRead_cons _ _

section

variable {faults : Nat → Option Fault} {file : Bytes} {key : Key}

theorem Table.dropWhile_passes {block : List Entry} (h : Table.passes key block = true)
    (rest : List Entry) :
    (Table.andThen block rest).dropWhile (fun e => e.key < key) =
      rest.dropWhile (fun e => e.key < key) := by
  unfold passes at h
  rw [Bool.and_eq_true, Bool.not_eq_true', List.isEmpty_eq_false_iff, all_eq_true] at h
  unfold andThen
  rw [if_neg h.1, List.dropWhile_append, List.dropWhile_eq_nil_iff.mpr h.2]
  rfl

theorem Table.head?_dropWhile_stops {block : List Entry} (h : ¬ Table.passes key block = true)
    (rest : List Entry) :
    ((Table.andThen block rest).dropWhile (fun e => e.key < key)).head? =
      (block.dropWhile (fun e => e.key < key)).head? := by
  unfold passes at h
  rw [Bool.and_eq_true, Bool.not_eq_true', List.isEmpty_eq_false_iff, all_eq_true] at h
  unfold andThen
  by_cases hnil : block = []
  · rw [if_pos hnil, hnil]
  · have hne : block.dropWhile (fun e => e.key < key) ≠ [] := fun hdrop =>
      h ⟨hnil, List.dropWhile_eq_nil_iff.mp hdrop⟩
    rw [if_neg hnil, List.dropWhile_append, if_neg (by rwa [List.isEmpty_iff]),
      List.head?_append_of_ne_nil _ hne]

/-- The walk is that of the readable table as far as the first faulty block that it loads. -/
theorem Table.head?_seek (faults : Nat → Option Fault) (file : Bytes) (key : Key) (i : Nat)
    (index : List IndexEntry) :
    ∃ rest, ((Table.iterUnder faults file i index).dropWhile (fun e => e.key < key)).head? =
      match (Table.loads file key i index).find? (fun b => (faults b.1).isSome) with
      | none => ((Table.iterBlocks file index).dropWhile (fun e => e.key < key)).head?
      | some b => ((Table.andThen (Table.blockEntries (readBlockUnder (faults b.1) file b.2))
          rest).dropWhile (fun e => e.key < key)).head? := by
  induction index generalizing i with
  | nil => exact ⟨[], rfl⟩
  | cons ie rest ih =>
    rw [Table.loads, List.find?_cons, iterUnder_cons, iterBlocks_cons]
    cases hfault : (faults i).isSome with
    | true => exact ⟨_, rfl⟩
    | false =>
      rw [Option.isNone_iff_eq_none.mp (Option.isSome_eq_false_iff.mp hfault)]
      show ∃ _, ((andThen (blockEntries (readBlock file ie.offset ie.size)) _).dropWhile _).head? = _
      by_cases hpasses : passes key (blockEntries (readBlock file ie.offset ie.size)) = true
      · rw [dropWhile_passes hpasses, dropWhile_passes hpasses, if_pos hpasses]
        exact ih (i + 1)
      · rw [head?_dropWhile_stops hpasses, head?_dropWhile_stops hpasses, if_neg hpasses]
        exact ⟨[], rfl⟩

end

/-! ## The lookup. -/

/-- A fault that a table meets. -/
def LoadedBlock.faulty (faults : Faults) (b : LoadedBlock) : Bool :=
  (faults b.table.number b.place).isSome

theorem TableHandle.find?_loads (faults : Faults) (h : TableHandle) (key : Key)
    (hbloom : bloomMayContain h.table.bloom key = true) :
    (h.loads key).find? (LoadedBlock.faulty faults) =
      ((Table.loads h.table.file key (h.table.findBlock key - 1)
        (h.table.index.drop (h.table.findBlock key - 1))).find?
          (fun b => (faults h.number b.1).isSome)).map fun b => ⟨h, b.1, b.2⟩ := by
  unfold TableHandle.loads
  rw [if_pos hbloom, List.find?_map]
  rfl

variable {h : TableHandle} {key : Key} {faults : Faults} {bytes : Bytes} {e : Entry}
  {es : List Entry} {b : LoadedBlock} {hs : List TableHandle} {db : Db}

theorem TableHandle.getUnder_of_clean
    (hclean : (h.loads key).find? (LoadedBlock.faulty faults) = none) :
    h.table.getUnder (faults h.number) key = orNotFound (h.table.get key) := by
  unfold Table.getUnder Table.get
  by_cases hbloom : bloomMayContain h.table.bloom key = true
  · rw [h.find?_loads faults key hbloom, map_eq_none_iff] at hclean
    obtain ⟨_, hseek⟩ := Table.head?_seek (faults h.number) h.table.file key
      (h.table.findBlock key - 1) (h.table.index.drop (h.table.findBlock key - 1))
    rw [hclean] at hseek
    rw [if_pos hbloom, if_pos hbloom]
    unfold Table.seekUnder Table.seek
    simp only [hseek]
  · rw [if_neg hbloom, if_neg hbloom]

theorem TableHandle.getUnder_of_garbled
    (hfirst : (h.loads key).find? (LoadedBlock.faulty faults) = some b)
    (hgarbled : faults b.id.1 b.id.2 = some (.garbled bytes))
    (hparse : Table.parseEntries (bytes.length + 1) bytes = e :: es) (hkey : e.key = key) :
    h.table.getUnder (faults h.number) key = .ok e := by
  by_cases hbloom : bloomMayContain h.table.bloom key = true
  · rw [h.find?_loads faults key hbloom] at hfirst
    obtain ⟨x, hx, rfl⟩ := map_eq_some_iff.mp hfirst
    obtain ⟨rest, hseek⟩ := Table.head?_seek (faults h.number) h.table.file key
      (h.table.findBlock key - 1) (h.table.index.drop (h.table.findBlock key - 1))
    have hfault : faults h.number x.1 = some (.garbled bytes) := hgarbled
    have hblock : Table.blockEntries (some bytes) = e :: es := hparse
    simp only [hx, hfault, readBlockUnder, hblock] at hseek
    unfold Table.getUnder Table.seekUnder
    simp only [if_pos hbloom, hseek]
    simp [Table.andThen, Option.filter, hkey, orNotFound]
  · unfold TableHandle.loads at hfirst
    rw [if_neg hbloom] at hfirst
    cases hfirst

theorem askTables_of_clean (hclean : (tableLoads key hs).find? (LoadedBlock.faulty faults) = none) :
    askTables faults key hs = askTables noFaults key hs := by
  induction hs with
  | nil => rfl
  | cons h hs ih =>
    unfold tableLoads at hclean
    rw [List.find?_append, Option.or_eq_none_iff] at hclean
    unfold askTables
    rw [TableHandle.getUnder_of_clean hclean.1, Table.getUnder_clean]
    cases hget : h.table.get key with
    | some e => rfl
    | none =>
      rw [hget] at hclean
      show (if Status.isNotFound _ then askTables faults key hs else _) = _
      rw [ih hclean.2]
      rfl

theorem askTables_of_garbled
    (hfirst : (tableLoads key hs).find? (LoadedBlock.faulty faults) = some b)
    (hgarbled : faults b.id.1 b.id.2 = some (.garbled bytes))
    (hparse : Table.parseEntries (bytes.length + 1) bytes = e :: es) (hkey : e.key = key) :
    askTables faults key hs = .ok e := by
  induction hs with
  | nil => cases hfirst
  | cons h hs ih =>
    unfold tableLoads at hfirst
    unfold askTables
    rw [List.find?_append] at hfirst
    cases hown : (h.loads key).find? (LoadedBlock.faulty faults) with
    | some x =>
      rw [hown] at hfirst
      cases hfirst
      rw [TableHandle.getUnder_of_garbled hown hgarbled hparse hkey]
    | none =>
      -- this table meets no fault and does not have the key, so that the next one is asked
      rw [hown] at hfirst
      rw [TableHandle.getUnder_of_clean hown]
      cases hget : h.table.get key with
      | some x =>
        rw [hget] at hfirst
        cases hfirst
      | none =>
        rw [hget] at hfirst
        show (if Status.isNotFound _ then askTables faults key hs else _) = _
        rw [ih hfirst]
        rfl

/-- `DB::Get` reports an error, or what it would with all blocks readable. -/
def Db.Answers (faults : Faults) (db : Db) (key : Key) : Prop :=
  (∃ s, db.getUnder faults key = .error s ∧ s.isNotFound = false) ∨
    db.getUnder faults key = db.getUnder noFaults key

theorem Db.answers_of_clean (hclean : (db.blocksRead key).find? (LoadedBlock.faulty faults) = none) :
    db.Answers faults key := by
  right
  unfold Db.getUnder
  unfold Db.blocksRead at hclean
  cases hmem : db.inMemory key with
  | some e => rfl
  | none =>
    rw [hmem] at hclean
    simp only [askTables_of_clean hclean]

theorem Db.not_answers_of_garbled
    (hfirst : (db.blocksRead key).find? (LoadedBlock.faulty faults) = some b)
    (hgarbled : faults b.id.1 b.id.2 = some (.garbled bytes))
    (hparse : Table.parseEntries (bytes.length + 1) bytes = e :: es) (hkey : e.key = key)
    (hne : e.resolve ≠ db.get key) : ¬ db.Answers faults key := by
  have hget : db.getUnder faults key = orNotFound e.resolve := by
    unfold Db.blocksRead at hfirst
    unfold Db.getUnder
    cases hmem : db.inMemory key with
    | some x =>
      rw [hmem] at hfirst
      cases hfirst
    | none =>
      rw [hmem] at hfirst
      simp only [askTables_of_garbled hfirst hgarbled hparse hkey]
  rintro (⟨s, herror, hs⟩ | hsame)
  · rw [hget] at herror
    cases hresolve : e.resolve with
    | none =>
      rw [hresolve] at herror
      cases herror
      cases hs
    | some value =>
      rw [hresolve] at herror
      cases herror
  · rw [hget, Db.getUnder_clean] at hsame
    cases hresolve : e.resolve with
    | none =>
      rw [hresolve] at hsame hne
      cases hdb : db.get key with
      | none => exact hne hdb.symm
      | some value =>
        rw [hdb] at hsame
        cases hsame
    | some value =>
      rw [hresolve] at hsame hne
      cases hdb : db.get key with
      | none =>
        rw [hdb] at hsame
        cases hsame
      | some other =>
        rw [hdb] at hsame hne
        cases hsame
        exact hne rfl

/-! ## Bytes that say something else. -/

theorem parseEntry_zeros {data : Bytes} (h : ∀ x ∈ data, x = 0) :
    (parseEntry ⟨data, false⟩).1 = none := by
  have hbytes : ∀ (d : Decoder) (n : Nat), (∀ x ∈ d.rest, x = 0) →
      (∀ x ∈ (d.bytes n).1, x = 0) ∧ ∀ x ∈ (d.bytes n).2.rest, x = 0 := by
    intro d n hd
    unfold Decoder.bytes
    split
    · exact ⟨List.forall_mem_nil _, hd⟩
    · exact ⟨fun x hx => hd x (mem_of_mem_take hx), fun x hx => hd x (mem_of_mem_drop hx)⟩
  have hzero : ∀ bytes : Bytes, (∀ x ∈ bytes, x = 0) → decodeFixed bytes = 0 := by
    intro bytes hb
    induction bytes with
    | nil => rfl
    | cons b bytes ih =>
      rw [decodeFixed, hb b mem_cons_self, ih fun x hx => hb x (mem_cons_of_mem b hx)]
      rfl
  have hkey : ∀ x ∈ (Decoder.mk data false).lengthPrefixed.2.rest, x = 0 :=
    (hbytes _ _ (hbytes ⟨data, false⟩ 4 h).2).2
  have hop : ((Decoder.mk data false).lengthPrefixed.2.u64.2.u8).1 = 0 :=
    hzero _ (hbytes _ 1 (hbytes _ 8 hkey).2).1
  unfold parseEntry
  simp only [hop]
  simp [Op.ofCode]

/-- One entry, and zeros up to the size of the block. -/
def forged (e : Entry) (size : Nat) : Bytes :=
  appendEntry e ++ List.replicate (size - (appendEntry e).length) 0

section

variable {e : Entry} {size : Nat} (hkey : e.key.length < 2 ^ 32) (hvalue : e.value.length < 2 ^ 32)
  (hseq : e.seqno < 2 ^ 64) (hroom : (appendEntry e).length < size)

include hroom in
theorem length_forged : (forged e size).length = size := by
  unfold forged
  rw [length_append, length_replicate]
  omega

theorem forged_ne_nil : forged e size ≠ [] := by
  intro h
  have hlen := congrArg List.length h
  unfold forged at hlen
  rw [length_append, length_appendEntry, length_nil] at hlen
  omega

include hkey hvalue hseq

theorem parseEntries_forged (fuel : Nat) : ∃ es, Table.parseEntries (fuel + 1) (forged e size) =
    e :: es :=
  ⟨_, parseEntries_succ forged_ne_nil (parseEntry_append hkey hvalue hseq _) fuel⟩

include hroom

theorem parses_forged (fuel : Nat) : parses (fuel + 1) (forged e size) = false := by
  have hrest : List.replicate (size - (appendEntry e).length) (0 : UInt8) ≠ [] := by
    intro h
    have hlen := congrArg List.length h
    rw [length_replicate, length_nil] at hlen
    omega
  have hzeros := @parseEntry_zeros (List.replicate (size - (appendEntry e).length) 0)
    (fun x hx => List.eq_of_mem_replicate hx)
  have hparse : parseEntry ⟨forged e size, false⟩ =
      (some e, ⟨List.replicate (size - (appendEntry e).length) 0, false⟩) :=
    parseEntry_append hkey hvalue hseq _
  rw [parses, if_neg forged_ne_nil, hparse]
  show parses fuel (List.replicate (size - (appendEntry e).length) 0) = false
  cases fuel with
  | zero => exact decide_eq_false hrest
  | succ fuel =>
    rw [parses, if_neg hrest]
    generalize parseEntry ⟨List.replicate (size - (appendEntry e).length) 0, false⟩ = r at hzeros
    obtain ⟨parsed, dec⟩ := r
    cases hzeros
    rfl

end

/-! ## Where a lookup finds its blocks. -/

theorem Table.mem_loads {file : Bytes} {i : Nat} {index : List IndexEntry} {b : Nat × IndexEntry}
    (hb : b ∈ Table.loads file key i index) :
    ∃ j, b.1 = i + j ∧ index[j]? = some b.2 := by
  induction index generalizing i with
  | nil => cases hb
  | cons ie rest ih =>
    rw [Table.loads] at hb
    rcases mem_cons.mp hb with rfl | hb
    · exact ⟨0, rfl, rfl⟩
    · split at hb
      · obtain ⟨j, hj, hget⟩ := ih hb
        exact ⟨j + 1, by omega, hget⟩
      · cases hb

theorem TableHandle.mem_loads (hb : b ∈ h.loads key) :
    b.table = h ∧ h.table.index[b.place]? = some b.entry := by
  unfold TableHandle.loads at hb
  split at hb
  · obtain ⟨x, hx, rfl⟩ := mem_map.mp hb
    obtain ⟨j, hj, hget⟩ := Table.mem_loads hx
    refine ⟨rfl, ?_⟩
    show h.table.index[x.1]? = some x.2
    rw [hj, ← getElem?_drop]
    exact hget
  · cases hb

theorem mem_tableLoads (hb : b ∈ tableLoads key hs) :
    b.table ∈ hs ∧ b.table.table.index[b.place]? = some b.entry := by
  induction hs with
  | nil => cases hb
  | cons h hs ih =>
    rcases mem_append.mp hb with hb | hb
    · obtain ⟨htable, hentry⟩ := TableHandle.mem_loads hb
      rw [htable]
      exact ⟨mem_cons_self, hentry⟩
    · split at hb
      · cases hb
      · exact ⟨mem_cons_of_mem h (ih hb).1, (ih hb).2⟩

theorem Version.mem_asked {v : Version} (hh : h ∈ v.asked key) :
    h ∈ v.flatten := by
  rcases mem_append.mp hh with hh | hh
  · exact mem_version.mpr ⟨0, hh⟩
  · obtain ⟨files, hfiles, hfile⟩ := mem_filterMap.mp hh
    obtain ⟨hget, _⟩ := filter_eq_some_iff.mp hfile
    exact mem_flatten.mpr ⟨files, mem_of_mem_drop hfiles, mem_of_getElem? hget⟩

theorem Db.mem_blocksRead (hb : b ∈ db.blocksRead key) :
    b.table ∈ db.version.flatten ∧ b.table.table.index[b.place]? = some b.entry := by
  unfold Db.blocksRead at hb
  split at hb
  · cases hb
  · exact ⟨Version.mem_asked (mem_tableLoads hb).1, (mem_tableLoads hb).2⟩

/-! ## When faults do no harm. -/

/-- The block is larger than an entry of the key, and its size is one of 32 bits. -/
def LoadedBlock.Room (b : LoadedBlock) (key : Key) : Prop :=
  17 + key.length < b.entry.size ∧ b.entry.size < 2 ^ 32

theorem Db.exists_wrong {B : Set (Nat × Nat)} {n : Nat} (hv : VersionOk db.version n)
    (hroom : ∀ b ∈ db.blocksRead key, b.Room key) (hb : b ∈ db.blocksRead key) (hB : b.id ∈ B) :
    ∃ faults, FaultsOn B db.version faults ∧ ¬ db.Answers faults key := by
  classical
  -- the first block of the set that the lookup loads
  have hany : ((db.blocksRead key).find? fun x => decide (x.id ∈ B)).isSome := by
    rw [List.find?_isSome]
    exact ⟨b, hb, decide_eq_true hB⟩
  obtain ⟨first, hfirst⟩ := isSome_iff_exists.mp hany
  have hmem := List.mem_of_find?_eq_some hfirst
  have hfirstB : first.id ∈ B := by simpa using List.find?_some hfirst
  obtain ⟨htable, hindex⟩ := Db.mem_blocksRead hmem
  obtain ⟨hsize, hsmall⟩ := hroom first hmem
  -- an entry that says what the lookup must not say
  obtain ⟨e, hkey, hseq, hvalue, hne⟩ : ∃ e : Entry, e.key = key ∧ e.seqno = 0 ∧ e.value = [] ∧
      e.resolve ≠ db.get key := by
    by_cases hget : db.get key = none
    · refine ⟨⟨key, 0, .put, []⟩, rfl, rfl, rfl, ?_⟩
      rw [hget]
      exact Option.some_ne_none _
    · exact ⟨⟨key, 0, .delete, []⟩, rfl, rfl, rfl, fun h => hget h.symm⟩
  have hkeyLt : e.key.length < 2 ^ 32 := by
    rw [hkey]
    omega
  have hvalueLt : e.value.length < 2 ^ 32 := by
    rw [hvalue]
    decide
  have hseqLt : e.seqno < 2 ^ 64 := by
    rw [hseq]
    decide
  have hfits : (appendEntry e).length < first.entry.size := by
    rw [length_appendEntry, hkey, hvalue]
    exact hsize
  let faults : Faults := fun m i =>
    if (m, i) = first.id then some (.garbled (forged e first.entry.size))
    else if (m, i) ∈ B then some .failed else none
  have hsome : ∀ m i, (faults m i).isSome ↔ (m, i) ∈ B := by
    intro m i
    show (if (m, i) = first.id then some (Fault.garbled _) else _).isSome ↔ _
    split
    · next hid =>
        rw [hid]
        exact ⟨fun _ => hfirstB, fun _ => rfl⟩
    · split
      · next hin => exact ⟨fun _ => hin, fun _ => rfl⟩
      · next hout => exact ⟨nofun, fun hin => absurd hin hout⟩
  have hforged : faults first.id.1 first.id.2 = some (.garbled (forged e first.entry.size)) :=
    if_pos rfl
  obtain ⟨es, hparse⟩ := @parseEntries_forged e first.entry.size hkeyLt hvalueLt hseqLt
    (forged e first.entry.size).length
  refine ⟨faults, ⟨hsome, ?_⟩, ?_⟩
  · intro h hh i ie bytes hie hfault
    have hid : (h.number, i) = first.id := by
      by_contra hne
      have : faults h.number i = if (h.number, i) ∈ B then some .failed else none := if_neg hne
      rw [this] at hfault
      split at hfault
      · cases hfault
      · cases hfault
    -- the file number says which table this is
    have hsame : h = first.table := by
      obtain ⟨l, hl⟩ := mem_version.mp hh
      obtain ⟨m, hm⟩ := mem_version.mp htable
      exact (hv.numbers l m h hl first.table hm (congrArg Prod.fst hid)).2
    have hplace : i = first.place := congrArg Prod.snd hid
    rw [hsame, hplace, hindex] at hie
    cases hie
    have hbytes : bytes = forged e first.entry.size := by
      have : faults h.number i = some (.garbled (forged e first.entry.size)) := if_pos hid
      rw [this] at hfault
      cases hfault
      rfl
    rw [hbytes]
    exact ⟨length_forged hfits, parses_forged hkeyLt hvalueLt hseqLt hfits _⟩
  · have hfaulty : LoadedBlock.faulty faults = fun x => decide (x.id ∈ B) := by
      funext x
      rw [Bool.eq_iff_iff, decide_eq_true_iff]
      exact hsome x.table.number x.place
    rw [← hfaulty] at hfirst
    exact Db.not_answers_of_garbled hfirst hforged hparse hkey hne

/-- The newest entry of every key of the inputs is still read, and nothing else takes its place. -/
def Compaction.Unharmed (faults : Faults) (c : Compaction) : Prop :=
  SortedRuns.firsts (SortedRuns.merge (c.inputs.map (TableHandle.entriesUnder faults))) =
    SortedRuns.firsts (SortedRuns.merge (c.inputs.map TableHandle.entries))

/-- A compaction sets `bg_error_` and keeps its inputs, or leaves every lookup as it was. -/
def Compaction.Keeps (faults : Faults) (opts : Options) (v : Version) (n : Nat) (c : Compaction) :
    Prop :=
  ∀ v' n', doCompactionUnder faults opts v n c = some (v', n') → ∀ key, v'.read key = v.read key

theorem doCompactionUnder_of_unharmed {c : Compaction} (h : c.Unharmed faults) (opts : Options)
    (v : Version) (n : Nat) :
    doCompactionUnder faults opts v n c = doCompaction opts v n c := by
  have htables : c.tablesUnder faults opts v = c.tables opts v := by
    unfold Compaction.tablesUnder Compaction.tables buildTables
    rw [h]
  unfold doCompactionUnder doCompaction
  rw [htables]

/-- **Blocks that cannot be read go unnoticed, and do no harm only where they are not needed.**  A
lookup that loads none of them is right; one that loads a block of them, with room for its key, is
wrong for some bytes of that block; a compaction is right where the newest entries are still
read. -/
theorem faults_unnoticed_iff (B : Set (Nat × Nat)) :
    (∀ (db : Db) (key : Key), (∀ b ∈ db.blocksRead key, b.id ∉ B) →
      ∀ faults, FaultsOn B db.version faults → db.Answers faults key) ∧
    (∀ (db : Db) (n : Nat) (key : Key), VersionOk db.version n →
      (∀ b ∈ db.blocksRead key, b.Room key) →
      ((∀ faults, FaultsOn B db.version faults → db.Answers faults key) ↔
        ∀ b ∈ db.blocksRead key, b.id ∉ B)) ∧
    (∀ (opts : Options) (v : Version) (n : Nat) (compactPtr : Nat → Nat) (c : Compaction)
        (next : Nat → Nat) (faults : Faults), VersionOk v n → FaultsOn B v faults →
      pickCompaction opts v compactPtr = .found c next →
      (∀ t ∈ c.tables opts v, TableFits opts.table t) →
      c.Unharmed faults → c.Keeps faults opts v n) := by
  have hright : ∀ (db : Db) (key : Key), (∀ b ∈ db.blocksRead key, b.id ∉ B) →
      ∀ faults, FaultsOn B db.version faults → db.Answers faults key := by
    intro db key hout faults hfaults
    apply Db.answers_of_clean
    rw [List.find?_eq_none]
    intro b hb hfaulty
    exact hout b hb ((hfaults.blocks _ _).mp hfaulty)
  refine ⟨hright, ?_, ?_⟩
  · intro db n key hv hroom
    constructor
    · intro hanswers b hb hB
      obtain ⟨faults, hfaults, hwrong⟩ := Db.exists_wrong hv hroom hb hB
      exact hwrong (hanswers faults hfaults)
    · exact hright db key
  · intro opts v n compactPtr c next faults hv _ hpick hfits hunharmed v' n' hdo
    have hp := pickCompaction_picked hv hpick
    obtain ⟨m, outs, hclean, hm, hout⟩ := hp.outputs hv hfits
    rw [doCompactionUnder_of_unharmed hunharmed, hclean] at hdo
    cases hdo
    exact hp.read_eq hv hm hout

/-! ## Two tables. -/

/-- A table of one entry. -/
def tableOf (number : Nat) (e : Entry) : TableHandle :=
  ⟨{ (buildTable {} [e]).2 with number := number },
    (openTable (buildTable {} [e]).1).getD ⟨[], [], [], 0⟩⟩

/-- Two values of the key `a`, the newer one in the newer table. -/
def twoTables : Version :=
  [tableOf 2 ⟨[97], 2, .put, [2]⟩, tableOf 1 ⟨[97], 1, .put, [1]⟩] :: List.replicate 6 []

/-- Nothing is in memory. -/
def twoTablesDb : Db := { version := twoTables, stage := .idle }

/-- `pread` fails on the block of one table. -/
def failing (number : Nat) : Faults := fun n i =>
  if n = number ∧ i = 0 then some .failed else none

theorem faultsOn_failing (number : Nat) (v : Version) :
    FaultsOn {(number, 0)} v (failing number) := by
  constructor
  case blocks =>
    intro n i
    unfold failing
    split
    · next h => simp [h.1, h.2]
    · next h =>
        simp only [Option.isSome_none, Bool.false_eq_true, Set.mem_singleton_iff, Prod.mk.injEq,
          false_iff]
        exact h
  case garbled =>
    intro h _ i ie bytes _ hfault
    unfold failing at hfault
    split at hfault
    · cases hfault
    · cases hfault

theorem tableOf_ok (number : Nat) {e : Entry} (hfits : TableFits {} [e]) :
    (tableOf number e).entries = [e] ∧ HandleOk (tableOf number e) := by
  obtain ⟨t, hopen, hfinished⟩ := finished_table (cons_ne_nil e [])
    (pairwise_singleton _ _) hfits 0 number
  have hsame : tableOf number e = ⟨{ (buildTable {} [e]).2 with number := number, level := 0 }, t⟩ := by
    unfold tableOf
    rw [hopen]
    rfl
  obtain ⟨hentries, hok, _⟩ := hfinished _ hsame
  exact ⟨hentries, hok⟩

theorem twoTables_ok : VersionOk twoTables 3 := by
  obtain ⟨hentries2, hok2⟩ := @tableOf_ok 2 ⟨[97], 2, .put, [2]⟩ (by decide +kernel)
  obtain ⟨hentries1, hok1⟩ := @tableOf_ok 1 ⟨[97], 1, .put, [1]⟩ (by decide +kernel)
  apply versionOk_level0
  · simp [hok1, hok2]
  · rw [pairwise_pair]
    exact Nat.one_lt_two
  · intro h hh
    rcases List.mem_pair.mp hh with rfl | rfl
    · exact Nat.lt_succ_self 2
    · exact Nat.lt_of_succ_lt (Nat.lt_succ_self 2)
  · rw [pairwise_pair]
    intro x hx y hy _
    rw [hentries2] at hx
    rw [hentries1] at hy
    rw [mem_singleton.mp hx, mem_singleton.mp hy]
    exact Nat.one_lt_two

/-- The older table cannot be read: nobody needs it. -/
theorem faults_unnoticed_iff_olderTable :
    (twoTablesDb.blocksRead [97]).map LoadedBlock.id = [(2, 0)] ∧
      twoTablesDb.Answers (failing 1) [97] ∧
      Compaction.Keeps (failing 1) { l0CompactionTrigger := 2 } twoTables 3
        ⟨1, twoTables.level 0⟩ := by
  have hreads : (twoTablesDb.blocksRead [97]).map LoadedBlock.id = [(2, 0)] := by decide +kernel
  obtain ⟨hanswers, _, hkeeps⟩ := faults_unnoticed_iff {(1, 0)}
  refine ⟨hreads, hanswers twoTablesDb [97] ?_ _ (faultsOn_failing 1 twoTables), ?_⟩
  · intro b hb hin
    have hid : b.id ∈ (twoTablesDb.blocksRead [97]).map LoadedBlock.id := mem_map_of_mem hb
    rw [hreads, mem_singleton, Set.mem_singleton_iff.mp hin] at hid
    cases hid
  · have hentries : Compaction.entries ⟨1, twoTables.level 0⟩ =
        [⟨[97], 2, .put, [2]⟩, ⟨[97], 1, .put, [1]⟩] := by decide +kernel
    have hpick : pickCompaction { l0CompactionTrigger := 2 } twoTables (fun _ => 0) =
        .found ⟨1, twoTables.level 0⟩ (fun _ => 0) := rfl
    have hp := pickCompaction_picked twoTables_ok hpick
    apply hkeeps _ _ 3 _ _ _ (failing 1) twoTables_ok (faultsOn_failing 1 twoTables) hpick
    · apply hp.tableFits twoTables_ok fun e he => ((hp.mem_kept twoTables_ok).mp he).1.1
      rw [hentries]
      exact tablesFit_of_small (by decide) (by decide +kernel)
    · unfold Compaction.Unharmed
      decide +kernel

/-- **An older value in place of one that cannot be read**: the lookup returns it without an error,
and a compaction makes it the only one. -/
theorem read_failure_taken_for_absence :
    VersionOk twoTables 3 ∧ FaultsOn {(2, 0)} twoTables (failing 2) ∧
      (twoTablesDb.getUnder noFaults [97]).toOption = some [2] ∧
      (twoTablesDb.getUnder (failing 2) [97]).toOption = some [1] ∧
      (∃ next, pickCompaction { l0CompactionTrigger := 2 } twoTables (fun _ => 0) =
        .found ⟨1, twoTables.level 0⟩ next) ∧
      twoTables.read [97] = some [2] ∧
      (doCompactionUnder (failing 2) { l0CompactionTrigger := 2 } twoTables 3
        ⟨1, twoTables.level 0⟩).map (fun r => r.1.read [97]) = some (some [1]) := by
  refine ⟨twoTables_ok, faultsOn_failing 2 twoTables, ?_, ?_, ⟨_, rfl⟩, ?_, ?_⟩
  · decide +kernel
  · decide +kernel
  · decide +kernel
  · decide +kernel

end Flotilla.Storage
