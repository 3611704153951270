/-
  Storage.Sstable — table files, `storage/sstable.cc`.

  A table is a sequence of data blocks, an index with the first key, offset and
  size of every block, a filter and a footer.  Lengths and sizes are stored in 32
  bits, offsets and sequence numbers in 64.
-/
import Flotilla.Lib.BinarySearch
import Flotilla.Storage.Bloom
import Flotilla.Storage.Wal

namespace Flotilla.Storage

/-! ## Entries. -/

def appendEntry (e : Entry) : Bytes :=
  putLengthPrefixed e.key ++ (putFixed64 e.seqno ++ (putFixed8 e.op.code ++
    putLengthPrefixed e.value))

/-- The entry, if there is one, and the decoder behind it. -/
@[irreducible] def parseEntry (dec : Decoder) : Option Entry × Decoder :=
  let key := dec.lengthPrefixed
  let seqno := key.2.u64
  let op := seqno.2.u8
  let value := op.2.lengthPrefixed
  (if value.2.ok then (Op.ofCode op.1).map fun o => ⟨key.1, seqno.1, o, value.1⟩ else none, value.2)

/-! ## Building. -/

structure TableOptions where
  blockSize : Nat := 4096
  bloomBitsPerKey : Nat := 10

structure TableMeta where
  number : Nat := 0
  level : Nat := 0
  smallest : Key
  largest : Key
  entries : Nat
  fileBytes : Nat
  deriving DecidableEq

structure TableBuilder where
  block : Bytes := []
  blockFirstKey : Key := []
  index : Bytes := []
  keys : List Key := []
  file : Bytes := []
  entries : Nat := 0
  smallest : Key := []
  largest : Key := []

structure IndexEntry where
  firstKey : Key
  offset : Nat
  size : Nat

def IndexEntry.encode (ie : IndexEntry) : Bytes :=
  putLengthPrefixed ie.firstKey ++ (putFixed64 ie.offset ++ putFixed32 ie.size)

def kTableMagic : Nat := 0xF107111ADB

def kTableVersion : Nat := 1

def kFooterSize : Nat := 44

namespace TableBuilder

def flushBlock (b : TableBuilder) : TableBuilder :=
  if b.block = [] then b
  else { b with
    index := b.index ++ IndexEntry.encode ⟨b.blockFirstKey, b.file.length, b.block.length⟩
    file := b.file ++ b.block
    block := []
    blockFirstKey := [] }

/-- `Add` up to the size check. -/
def push (b : TableBuilder) (e : Entry) : TableBuilder :=
  { b with
    blockFirstKey := if b.block = [] then e.key else b.blockFirstKey
    smallest := if b.entries = 0 then e.key else b.smallest
    largest := e.key
    keys := if b.keys.getLast? = some e.key then b.keys else b.keys ++ [e.key]
    block := b.block ++ appendEntry e
    entries := b.entries + 1 }

def add (opts : TableOptions) (b : TableBuilder) (e : Entry) : TableBuilder :=
  if opts.blockSize ≤ (b.push e).block.length then (b.push e).flushBlock else b.push e

def bytesWritten (b : TableBuilder) : Nat := b.file.length + b.block.length

def footer (indexOff indexSize bloomOff bloomSize entries : Nat) : Bytes :=
  putFixed64 indexOff ++ (putFixed32 indexSize ++ (putFixed64 bloomOff ++ (putFixed32 bloomSize ++
    (putFixed64 entries ++ (putFixed32 kTableVersion ++ putFixed64 kTableMagic)))))

/-- Data blocks, index, filter and footer, once every block is flushed. -/
def image (opts : TableOptions) (b : TableBuilder) : Bytes :=
  let bloom := buildBloom b.keys opts.bloomBitsPerKey
  b.file ++ (b.index ++ (bloom ++ footer b.file.length b.index.length
    (b.file.length + b.index.length) bloom.length b.entries))

/-- The whole file, and what `Finish` reports. -/
def finish (opts : TableOptions) (b : TableBuilder) : Bytes × TableMeta :=
  let b := b.flushBlock
  (b.image opts, { smallest := b.smallest, largest := b.largest, entries := b.entries,
                   fileBytes := (b.image opts).length })

end TableBuilder

/-- `Add` for every entry, then `Finish`. -/
def buildTable (opts : TableOptions) (es : List Entry) : Bytes × TableMeta :=
  (es.foldl (TableBuilder.add opts) {}).finish opts

/-! ## Reading. -/

/-- `ReadBlock`: all of the bytes, or an error. -/
def readBlock (file : Bytes) (off size : Nat) : Option Bytes :=
  if size = 0 ∨ off + size ≤ file.length then some ((file.drop off).take size) else none

structure Table where
  file : Bytes
  index : List IndexEntry
  bloom : Bytes
  numEntries : Nat

/-- The loop over the index; every round takes at least sixteen bytes. -/
def parseIndex : Nat → Bytes → Option (List IndexEntry)
  | 0, _ => some []
  | fuel + 1, data =>
      if data = [] then some []
      else
        let firstKey := (Decoder.mk data false).lengthPrefixed
        let offset := firstKey.2.u64
        let size := offset.2.u32
        if size.2.ok then
          (parseIndex fuel size.2.rest).map (⟨firstKey.1, offset.1, size.1⟩ :: ·)
        else none

/-- `Table::Open`; every failure is a corruption. -/
def openTable (file : Bytes) : Option Table :=
  if file.length < kFooterSize then none
  else
    (readBlock file (file.length - kFooterSize) kFooterSize).bind fun footer =>
      let indexOff := (Decoder.mk footer false).u64
      let indexSize := indexOff.2.u32
      let bloomOff := indexSize.2.u64
      let bloomSize := bloomOff.2.u32
      let entries := bloomSize.2.u64
      let version := entries.2.u32
      let magic := version.2.u64
      if magic.2.ok = false ∨ magic.1 ≠ kTableMagic ∨ version.1 ≠ kTableVersion then none
      else
        (readBlock file indexOff.1 indexSize.1).bind fun indexData =>
          (parseIndex (indexData.length + 1) indexData).bind fun index =>
            (readBlock file bloomOff.1 bloomSize.1).map fun bloom =>
              ⟨file, index, bloom, entries.1⟩

namespace Table

/-- `ParseNext` until it returns false. -/
def parseEntries : Nat → Bytes → List Entry
  | 0, _ => []
  | fuel + 1, data =>
      if data = [] then []
      else
        match parseEntry ⟨data, false⟩ with
        | (some e, dec) => e :: parseEntries fuel dec.rest
        | (none, _) => []

/-- The entries of a block, if it can be read. -/
def blockEntries (block : Option Bytes) : List Entry :=
  block.elim [] fun bytes => parseEntries (bytes.length + 1) bytes

/-- The entries of the blocks from one on.  A block that cannot be read, or has no entry, ends the
iteration; after a parse error inside a block the next block follows. -/
def iterRead : List (Option Bytes) → List Entry
  | [] => []
  | block :: rest =>
      match blockEntries block with
      | [] => []
      | e :: es => e :: es ++ iterRead rest

def iterBlocks (file : Bytes) (index : List IndexEntry) : List Entry :=
  iterRead (index.map fun ie => readBlock file ie.offset ie.size)

/-- `SeekToFirst`, and `Next` to the end. -/
def newIterator (t : Table) : List Entry := iterBlocks t.file t.index

/-- The number of blocks whose first key is below `key`, so that `FindBlock` is one less: `ans` is
always `lo - 1`. -/
def findBlock (t : Table) (key : Key) : Nat :=
  BinarySearch.search (fun lo hi => (lo + (hi - 1)) / 2)
    (fun i => (t.index[i]?).any (fun ie => ie.firstKey < key)) (t.index.length + 1) 0 t.index.length

/-- The entries from the first key that is not below `key`. -/
def seek (t : Table) (key : Key) : List Entry :=
  (iterBlocks t.file (t.index.drop (t.findBlock key - 1))).dropWhile (fun e => e.key < key)

/-- `Table::Get`; nothing for `NotFound`. -/
def get (t : Table) (key : Key) : Option Entry :=
  if bloomMayContain t.bloom key then (t.seek key).head?.filter (fun e => e.key = key) else none

end Table

end Flotilla.Storage
