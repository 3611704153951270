/-
  Storage.TableRoundTrip — what is built can be read.

  `Built` says what a builder has written: whole blocks, an index entry for each
  of them, and the entries of a block that is not full yet.  From it the file is
  read back block by block.
-/
import Flotilla.Storage.Sstable

namespace Flotilla.Storage

/-! ## Entries. -/

@[simp] theorem length_appendEntry (e : Entry) :
    (appendEntry e).length = 17 + e.key.length + e.value.length := by
  unfold appendEntry
  simp only [length_append, length_putFixed64, length_putFixed8, length_putLengthPrefixed]
  omega

/-! ## Blocks. -/

def encodeBlock (es : List Entry) : Bytes := es.flatMap appendEntry

theorem encodeBlock_concat (es : List Entry) (e : Entry) :
    encodeBlock (es ++ [e]) = encodeBlock es ++ appendEntry e := by
  unfold encodeBlock
  rw [flatMap_append, flatMap_singleton]

variable {e : Entry} {es : List Entry} {fuel : Nat} {file : Bytes}

theorem length_le_encodeBlock (he : e ∈ es) :
    17 + e.key.length + e.value.length ≤ (encodeBlock es).length := by
  obtain ⟨as, bs, rfl⟩ := append_of_mem he
  unfold encodeBlock
  rw [flatMap_append, flatMap_cons, length_append, length_append, length_appendEntry]
  omega

theorem count_le_encodeBlock (es : List Entry) : es.length ≤ (encodeBlock es).length := by
  induction es with
  | nil => exact Nat.le_refl 0
  | cons e es ih =>
    show es.length + 1 ≤ (appendEntry e ++ encodeBlock es).length
    rw [length_append, length_appendEntry]
    omega

theorem encodeBlock_eq_nil : encodeBlock es = [] ↔ es = [] := by
  constructor
  · intro h
    cases es with
    | nil => rfl
    | cons e es =>
      have hlen := congrArg List.length h
      have : (encodeBlock (e :: es)).length = (appendEntry e).length + (encodeBlock es).length :=
        length_append
      rw [this, length_appendEntry, length_nil] at hlen
      omega
  · rintro rfl
    rfl

theorem parseEntry_append (hkey : e.key.length < 2 ^ 32) (hvalue : e.value.length < 2 ^ 32)
    (hseq : e.seqno < 2 ^ 64) (rest : Bytes) :
    parseEntry ⟨appendEntry e ++ rest, false⟩ = (some e, ⟨rest, false⟩) := by
  have hop : e.op.code < 256 := by cases e.op <;> decide
  unfold parseEntry appendEntry
  simp only [append_assoc, Decoder.lengthPrefixed_put hkey, Decoder.u64_put hseq,
    Decoder.u8_put hop, Decoder.lengthPrefixed_put hvalue]
  cases hcode : e.op <;> simp [Decoder.ok, Op.code, Op.ofCode, ← hcode]

theorem parseEntries_succ {data : Bytes} {dec : Decoder} (hne : data ≠ [])
    (h : parseEntry ⟨data, false⟩ = (some e, dec)) (fuel : Nat) :
    Table.parseEntries (fuel + 1) data = e :: Table.parseEntries fuel dec.rest := by
  rw [Table.parseEntries, if_neg hne, h]

theorem parseEntries_encode
    (h : ∀ e ∈ es, e.key.length < 2 ^ 32 ∧ e.value.length < 2 ^ 32 ∧ e.seqno < 2 ^ 64)
    (hfuel : (encodeBlock es).length < fuel) :
    Table.parseEntries fuel (encodeBlock es) = es := by
  induction es generalizing fuel with
  | nil =>
    cases fuel with
    | zero => omega
    | succ fuel => rfl
  | cons e es ih =>
    cases fuel with
    | zero => omega
    | succ fuel =>
      obtain ⟨hkey, hvalue, hseq⟩ := h e mem_cons_self
      have hne : encodeBlock (e :: es) ≠ [] := fun hnil =>
        cons_ne_nil e es (encodeBlock_eq_nil.mp hnil)
      have hlen : (encodeBlock (e :: es)).length =
          (appendEntry e).length + (encodeBlock es).length := length_append
      rw [length_appendEntry] at hlen
      have hparse : parseEntry ⟨encodeBlock (e :: es), false⟩ = (some e, ⟨encodeBlock es, false⟩) :=
        parseEntry_append hkey hvalue hseq (encodeBlock es)
      rw [parseEntries_succ hne hparse]
      rw [ih (fun e' he' => h e' (mem_cons_of_mem e he')) (by omega)]

/-! ## The index. -/

def firstKey (es : List Entry) : Key := (es.head?.map Entry.key).getD []

/-- The index of blocks that start at `off`. -/
def indexOf : Nat → List (List Entry) → List IndexEntry
  | _, [] => []
  | off, g :: gs =>
      ⟨firstKey g, off, (encodeBlock g).length⟩ :: indexOf (off + (encodeBlock g).length) gs

def encodeIndex (index : List IndexEntry) : Bytes := index.flatMap IndexEntry.encode

theorem indexOf_concat (off : Nat) (gs : List (List Entry)) (g : List Entry) :
    indexOf off (gs ++ [g]) = indexOf off gs ++
      [⟨firstKey g, off + (gs.flatMap encodeBlock).length, (encodeBlock g).length⟩] := by
  induction gs generalizing off with
  | nil => rfl
  | cons h gs ih =>
    show _ :: indexOf _ (gs ++ [g]) = _ :: (indexOf _ gs ++ _)
    rw [ih, flatMap_cons, length_append, Nat.add_assoc]

theorem length_indexOf (off : Nat) (gs : List (List Entry)) :
    (indexOf off gs).length = gs.length := by
  induction gs generalizing off with
  | nil => rfl
  | cons g gs ih =>
    show (indexOf _ gs).length + 1 = _
    rw [ih, length_cons]

theorem getElem?_indexOf (off : Nat) (gs : List (List Entry)) (i : Nat) :
    ((indexOf off gs)[i]?).map IndexEntry.firstKey = (gs[i]?).map firstKey := by
  induction gs generalizing off i with
  | nil => rfl
  | cons g gs ih =>
    cases i with
    | zero => rfl
    | succ i => exact ih _ i

theorem drop_indexOf (off : Nat) (gs : List (List Entry)) (i : Nat) :
    (indexOf off gs).drop i =
      indexOf (off + ((gs.take i).flatMap encodeBlock).length) (gs.drop i) := by
  induction gs generalizing off i with
  | nil => simp [indexOf]
  | cons g gs ih =>
    cases i with
    | zero => rfl
    | succ i =>
      show (indexOf _ gs).drop i = _
      rw [ih, take_succ_cons, flatMap_cons, length_append, Nat.add_assoc]
      rfl

theorem length_encode (ie : IndexEntry) : ie.encode.length = 16 + ie.firstKey.length := by
  unfold IndexEntry.encode
  simp only [length_append, length_putFixed64, length_putFixed32, length_putLengthPrefixed]
  omega

theorem count_le_encodeIndex (index : List IndexEntry) :
    16 * index.length ≤ (encodeIndex index).length := by
  induction index with
  | nil => exact Nat.le_refl 0
  | cons ie index ih =>
    show 16 * (index.length + 1) ≤ (ie.encode ++ encodeIndex index).length
    rw [length_append, length_encode]
    omega

structure IndexEntry.Fits (ie : IndexEntry) : Prop where
  key : ie.firstKey.length < 2 ^ 32
  offset : ie.offset < 2 ^ 64
  size : ie.size < 2 ^ 32

theorem parseIndex_succ {ie : IndexEntry} (h : ie.Fits) {index : List IndexEntry} :
    parseIndex (fuel + 1) (encodeIndex (ie :: index)) =
      (parseIndex fuel (encodeIndex index)).map (ie :: ·) := by
  have hcons : encodeIndex (ie :: index) = putLengthPrefixed ie.firstKey ++
      (putFixed64 ie.offset ++ (putFixed32 ie.size ++ encodeIndex index)) := by
    show ie.encode ++ encodeIndex index = _
    unfold IndexEntry.encode
    rw [append_assoc, append_assoc]
  have hne : encodeIndex (ie :: index) ≠ [] := by
    intro hnil
    have hlen := congrArg List.length (hcons.symm.trans hnil)
    rw [length_append, length_putLengthPrefixed, length_nil] at hlen
    omega
  rw [parseIndex, if_neg hne, hcons]
  simp only [Decoder.lengthPrefixed_put h.key, Decoder.u64_put h.offset, Decoder.u32_put h.size]
  rfl

theorem parseIndex_encode {index : List IndexEntry} (h : ∀ ie ∈ index, ie.Fits)
    (hfuel : (encodeIndex index).length < fuel) :
    parseIndex fuel (encodeIndex index) = some index := by
  induction index generalizing fuel with
  | nil =>
    cases fuel with
    | zero => omega
    | succ fuel => rfl
  | cons ie index ih =>
    cases fuel with
    | zero => omega
    | succ fuel =>
      have hie := h ie mem_cons_self
      have hlen : (encodeIndex (ie :: index)).length =
          ie.encode.length + (encodeIndex index).length := length_append
      rw [length_encode] at hlen
      rw [parseIndex_succ hie]
      rw [ih (fun ie' hie' => h ie' (mem_cons_of_mem ie hie')) (by omega)]
      rfl

/-! ## What a builder has written. -/

/-- `Add`'s list of keys: versions of one key stand together, so it is enough to look at the last. -/
def addKey (keys : List Key) (e : Entry) : List Key :=
  if keys.getLast? = some e.key then keys else keys ++ [e.key]

def keysOf (es : List Entry) : List Key := es.foldl addKey []

theorem keysOf_concat (es : List Entry) (e : Entry) :
    keysOf (es ++ [e]) = addKey (keysOf es) e := by
  unfold keysOf
  rw [foldl_append, foldl_cons, foldl_nil]

theorem mem_keysOf (he : e ∈ es) : e.key ∈ keysOf es := by
  induction es using List.reverseRecOn with
  | nil => cases he
  | append_singleton es x ih =>
    rw [keysOf_concat]
    unfold addKey
    rcases mem_append.mp he with he | he
    · split
      · exact ih he
      · exact mem_append_left _ (ih he)
    · rw [mem_singleton.mp he]
      split
      · rename_i hsame
        exact List.mem_of_getLast? hsame
      · exact mem_append_right _ mem_cons_self

/-- The entries cut into blocks: one is closed when it reaches `blockSize`, the last by `Finish`.
`last` is the block that is being filled. -/
def blocksFrom (opts : TableOptions) : List Entry → List Entry → List (List Entry)
  | last, [] => if last = [] then [] else [last]
  | last, e :: es =>
      if opts.blockSize ≤ (encodeBlock (last ++ [e])).length
      then (last ++ [e]) :: blocksFrom opts [] es
      else blocksFrom opts (last ++ [e]) es

def blocksOf (opts : TableOptions) (es : List Entry) : List (List Entry) := blocksFrom opts [] es

theorem flatten_blocksFrom (opts : TableOptions) (last es : List Entry) :
    (blocksFrom opts last es).flatten = last ++ es := by
  induction es generalizing last with
  | nil =>
    unfold blocksFrom
    split
    · next h => rw [h, List.flatten_nil, append_nil]
    · rw [flatten_singleton, append_nil]
  | cons e es ih =>
    unfold blocksFrom
    split
    · rw [flatten_cons, ih, nil_append, append_assoc, singleton_append]
    · rw [ih, append_assoc, singleton_append]

theorem flatten_blocksOf (opts : TableOptions) (es : List Entry) :
    (blocksOf opts es).flatten = es := flatten_blocksFrom opts [] es

/-- Whole blocks are written, `last` is the block that is not full yet. -/
structure Built (b : TableBuilder) (groups : List (List Entry)) (last : List Entry) : Prop where
  file : b.file = groups.flatMap encodeBlock
  index : b.index = encodeIndex (indexOf 0 groups)
  block : b.block = encodeBlock last
  first : last ≠ [] → b.blockFirstKey = firstKey last
  nonempty : ∀ g ∈ groups, g ≠ []
  entries : b.entries = (groups.flatten ++ last).length
  keys : b.keys = keysOf (groups.flatten ++ last)
  smallest : b.smallest = firstKey (groups.flatten ++ last)
  largest : b.largest = ((groups.flatten ++ last).getLast?.map Entry.key).getD []

theorem Built.empty : Built {} [] [] where
  file := rfl
  index := rfl
  block := rfl
  first := fun h => absurd rfl h
  nonempty := nofun
  entries := rfl
  keys := rfl
  smallest := rfl
  largest := rfl

section

variable {b : TableBuilder} {groups : List (List Entry)} {last : List Entry}

theorem Built.push (h : Built b groups last) (e : Entry) : Built (b.push e) groups (last ++ [e]) where
  file := h.file
  index := h.index
  block := by
    show b.block ++ appendEntry e = _
    rw [h.block, encodeBlock_concat]
  first := by
    intro _
    show (if b.block = [] then e.key else b.blockFirstKey) = _
    by_cases hlast : last = []
    · rw [if_pos (by rw [h.block, hlast]; rfl), hlast]
      rfl
    · rw [if_neg (by rw [h.block, encodeBlock_eq_nil]; exact hlast), h.first hlast]
      unfold firstKey
      rw [List.head?_append_of_ne_nil _ hlast]
  nonempty := h.nonempty
  entries := by
    show b.entries + 1 = _
    rw [h.entries]
    simp only [length_append, length_singleton]
    omega
  keys := by
    show addKey b.keys e = _
    rw [← append_assoc, keysOf_concat, h.keys]
  smallest := by
    show (if b.entries = 0 then e.key else b.smallest) = _
    rw [← append_assoc]
    by_cases hnil : groups.flatten ++ last = []
    · rw [if_pos (by rw [h.entries, hnil]; rfl), hnil]
      rfl
    · rw [if_neg (by rw [h.entries, List.length_eq_zero_iff]; exact hnil), h.smallest]
      unfold firstKey
      rw [List.head?_append_of_ne_nil _ hnil]
  largest := by
    show e.key = _
    rw [← append_assoc, List.getLast?_concat]
    rfl

theorem Built.flushBlock (h : Built b groups last) (hlast : last ≠ []) :
    Built b.flushBlock (groups ++ [last]) [] := by
  have hne : b.block ≠ [] := by
    rw [h.block]
    exact fun hnil => hlast (encodeBlock_eq_nil.mp hnil)
  have hflat : (groups ++ [last]).flatten ++ [] = groups.flatten ++ last := by
    rw [List.flatten_append, flatten_singleton, append_nil]
  unfold TableBuilder.flushBlock
  rw [if_neg hne]
  constructor
  case file =>
    show b.file ++ b.block = _
    rw [flatMap_append, flatMap_singleton, h.file, h.block]
  case index =>
    show b.index ++ IndexEntry.encode ⟨b.blockFirstKey, b.file.length, b.block.length⟩ = _
    rw [indexOf_concat, h.index, h.file, h.block, h.first hlast]
    unfold encodeIndex
    rw [flatMap_append, flatMap_singleton, Nat.zero_add]
  case block => rfl
  case first => exact fun hnil => absurd rfl hnil
  case nonempty =>
    intro g hg
    rcases mem_append.mp hg with hg | hg
    · exact h.nonempty g hg
    · rw [mem_singleton.mp hg]
      exact hlast
  case entries =>
    rw [hflat]
    exact h.entries
  case keys =>
    rw [hflat]
    exact h.keys
  case smallest =>
    rw [hflat]
    exact h.smallest
  case largest =>
    rw [hflat]
    exact h.largest

/-- The loop of `Add` cuts the blocks of `blocksFrom`. -/
theorem Built.foldl_add (opts : TableOptions) (h : Built b groups last) (es : List Entry) :
    Built (es.foldl (TableBuilder.add opts) b).flushBlock (groups ++ blocksFrom opts last es) [] := by
  induction es generalizing b groups last with
  | nil =>
    show Built b.flushBlock (groups ++ blocksFrom opts last []) []
    unfold blocksFrom
    split
    · next hlast =>
        have hsame : b.flushBlock = b := by
          unfold TableBuilder.flushBlock
          rw [if_pos (by rw [h.block, hlast]; rfl)]
        rw [hsame, append_nil, ← hlast]
        exact h
    · next hlast => exact h.flushBlock hlast
  | cons e es ih =>
    have hpush := h.push e
    have hblock := hpush.block
    rw [foldl_cons]
    unfold TableBuilder.add blocksFrom
    rw [hblock]
    split
    · have hflushed := ih (hpush.flushBlock (by simp))
      rw [append_assoc, singleton_append] at hflushed
      exact hflushed
    · exact ih hpush

theorem built_blocksOf (opts : TableOptions) (es : List Entry) :
    Built (es.foldl (TableBuilder.add opts) {}).flushBlock (blocksOf opts es) [] :=
  Built.empty.foldl_add opts es

end

/-! ## Sizes of the parts. -/

theorem flatMap_encodeBlock (groups : List (List Entry)) :
    groups.flatMap encodeBlock = encodeBlock groups.flatten := by
  induction groups with
  | nil => rfl
  | cons g groups ih =>
    rw [flatMap_cons, ih, flatten_cons]
    unfold encodeBlock
    rw [flatMap_append]

/-- The sizes and offsets that are written fit their fields. -/
structure TableFits (opts : TableOptions) (es : List Entry) : Prop where
  seqnos : ∀ e ∈ es, e.seqno < 2 ^ 64
  blocks : ∀ g ∈ blocksOf opts es, (encodeBlock g).length < 2 ^ 32
  index : (encodeIndex (indexOf 0 (blocksOf opts es))).length < 2 ^ 32
  bloom : bloomSize (keysOf es).length opts.bloomBitsPerKey * 8 < 2 ^ 32
  offsets : (encodeBlock es).length + (encodeIndex (indexOf 0 (blocksOf opts es))).length < 2 ^ 64

instance (opts : TableOptions) (es : List Entry) : Decidable (TableFits opts es) :=
  decidable_of_iff ((∀ e ∈ es, e.seqno < 2 ^ 64) ∧
    (∀ g ∈ blocksOf opts es, (encodeBlock g).length < 2 ^ 32) ∧
    (encodeIndex (indexOf 0 (blocksOf opts es))).length < 2 ^ 32 ∧
    bloomSize (keysOf es).length opts.bloomBitsPerKey * 8 < 2 ^ 32 ∧
    (encodeBlock es).length + (encodeIndex (indexOf 0 (blocksOf opts es))).length < 2 ^ 64)
    ⟨fun ⟨a, b, c, d, e⟩ => ⟨a, b, c, d, e⟩, fun ⟨a, b, c, d, e⟩ => ⟨a, b, c, d, e⟩⟩

theorem TableFits.entry {opts : TableOptions} (h : TableFits opts es) (he : e ∈ es) :
    e.key.length < 2 ^ 32 ∧ e.value.length < 2 ^ 32 ∧ e.seqno < 2 ^ 64 := by
  have hseq := h.seqnos e he
  rw [← flatten_blocksOf opts es] at he
  obtain ⟨g, hg, he⟩ := mem_flatten.mp he
  have hblock := h.blocks g hg
  have hle := length_le_encodeBlock he
  exact ⟨by omega, by omega, hseq⟩

theorem mem_indexOf {off : Nat} {groups : List (List Entry)} {ie : IndexEntry}
    (h : ie ∈ indexOf off groups) : ∃ g ∈ groups, ie.firstKey = firstKey g ∧
      ie.size = (encodeBlock g).length ∧
      ie.offset ≤ off + (groups.flatMap encodeBlock).length := by
  induction groups generalizing off with
  | nil => cases h
  | cons g groups ih =>
    rcases mem_cons.mp h with rfl | h
    · exact ⟨g, mem_cons_self, rfl, rfl, Nat.le_add_right _ _⟩
    · obtain ⟨g', hg', hkey, hsize, hoff⟩ := ih h
      refine ⟨g', mem_cons_of_mem g hg', hkey, hsize, ?_⟩
      rw [flatMap_cons, length_append]
      omega

/-! ## Opening. -/

theorem iterBlocks_indexOf {rest : Bytes} {off : Nat} {groups : List (List Entry)}
    (hfile : file.drop off = groups.flatMap encodeBlock ++ rest) (hoff : off ≤ file.length)
    (hne : ∀ g ∈ groups, g ≠ []) (hfits : ∀ e ∈ groups.flatten,
      e.key.length < 2 ^ 32 ∧ e.value.length < 2 ^ 32 ∧ e.seqno < 2 ^ 64) :
    Table.iterBlocks file (indexOf off groups) = groups.flatten := by
  induction groups generalizing off with
  | nil => rfl
  | cons g groups ih =>
    have hlength := congrArg List.length hfile
    rw [length_drop, flatMap_cons, length_append, length_append] at hlength
    have hblock : readBlock file off (encodeBlock g).length = some (encodeBlock g) := by
      unfold readBlock
      rw [if_pos (.inr (by omega)), hfile, flatMap_cons, append_assoc, take_left]
    have hparse : Table.parseEntries ((encodeBlock g).length + 1) (encodeBlock g) = g :=
      parseEntries_encode (fun e he => hfits e (mem_append_left _ he)) (Nat.lt_succ_self _)
    have hrest : Table.iterBlocks file (indexOf (off + (encodeBlock g).length) groups) =
        groups.flatten := by
      apply ih
      · rw [← drop_drop, hfile, flatMap_cons, append_assoc, drop_left]
      · omega
      · exact fun g' hg' => hne g' (mem_cons_of_mem g hg')
      · exact fun e he => hfits e (mem_append_right _ he)
    have hg : Table.blockEntries (readBlock file off (encodeBlock g).length) = g := by
      rw [hblock]
      exact hparse
    show Table.iterRead (readBlock file off (encodeBlock g).length :: _) = g ++ groups.flatten
    rw [← hrest, Table.iterRead, hg]
    cases g with
    | nil => exact absurd rfl (hne [] mem_cons_self)
    | cons e es => rfl

theorem length_footer (a b c d e : Nat) : (TableBuilder.footer a b c d e).length = kFooterSize := by
  unfold TableBuilder.footer
  simp only [length_append, length_putFixed64, length_putFixed32]
  rfl

theorem openTable_eq {data index bloom : Bytes} {entries : Nat}
    (hfile : file = data ++ (index ++ (bloom ++ TableBuilder.footer data.length index.length
      (data.length + index.length) bloom.length entries)))
    (hoff : data.length + index.length < 2 ^ 64) (hbloom : bloom.length < 2 ^ 32)
    (hentries : entries < 2 ^ 64) :
    openTable file = (readBlock file data.length (index.length % 2 ^ 32)).bind fun indexData =>
      (parseIndex (indexData.length + 1) indexData).bind fun index' =>
        (readBlock file (data.length + index.length) bloom.length).map fun bloom =>
          ⟨file, index', bloom, entries⟩ := by
  have hindexOff : data.length < 2 ^ 64 := by omega
  rw [← append_assoc, ← append_assoc] at hfile
  have hlength := congrArg List.length hfile
  rw [length_append, length_footer] at hlength
  have hfooter : readBlock file (file.length - kFooterSize) kFooterSize =
      some (TableBuilder.footer data.length index.length (data.length + index.length) bloom.length
        entries) := by
    unfold readBlock
    rw [if_pos (.inr (by omega)), hlength, Nat.add_sub_cancel, hfile, drop_left,
      take_of_length_le (by rw [length_footer])]
  have hmagic : (Decoder.mk (putFixed64 kTableMagic) false).u64 = (kTableMagic, ⟨[], false⟩) := by
    have := Decoder.u64_put (n := kTableMagic) (by decide) []
    rw [append_nil] at this
    exact this
  have hsize : ∀ rest, (Decoder.mk (putFixed32 index.length ++ rest) false).u32 =
      (index.length % 2 ^ 32, ⟨rest, false⟩) := Decoder.fixed_putFixed 4 index.length
  have hversion : kTableVersion < 2 ^ 32 := by decide
  unfold openTable
  rw [if_neg (by omega), hfooter]
  unfold TableBuilder.footer
  simp only [bind_some, Decoder.u64_put hindexOff, hsize, Decoder.u64_put hoff,
    Decoder.u32_put hbloom, Decoder.u64_put hentries, Decoder.u32_put hversion, hmagic]
  rfl

theorem openTable_footer {data index bloom : Bytes} {entries : Nat} {parsed : List IndexEntry}
    (hfile : file = data ++ (index ++ (bloom ++ TableBuilder.footer data.length index.length
      (data.length + index.length) bloom.length entries)))
    (hoff : data.length + index.length < 2 ^ 64) (hindex : index.length < 2 ^ 32)
    (hbloom : bloom.length < 2 ^ 32) (hentries : entries < 2 ^ 64)
    (hparse : parseIndex (index.length + 1) index = some parsed) :
    openTable file = some ⟨file, parsed, bloom, entries⟩ := by
  have hlength := congrArg List.length hfile
  simp only [length_append, length_footer] at hlength
  have hreadIndex : readBlock file data.length index.length = some index := by
    unfold readBlock
    rw [if_pos (.inr (by omega)), hfile, drop_left, take_left]
  have hreadBloom : readBlock file (data.length + index.length) bloom.length = some bloom := by
    unfold readBlock
    rw [if_pos (.inr (by omega)), hfile, ← drop_drop, drop_left, drop_left, take_left]
  rw [openTable_eq hfile hoff hbloom hentries, Nat.mod_eq_of_lt hindex, hreadIndex,
    bind_some, hparse, bind_some, hreadBloom, map_some]

/-! ## Searching. -/

section

variable {groups : List (List Entry)} {key : Key}

theorem firstKey_mem {g : List Entry} (hg : g ≠ []) : ∃ e ∈ g, firstKey g = e.key := by
  cases g with
  | nil => exact absurd rfl hg
  | cons e es => exact ⟨e, mem_cons_self, rfl⟩

theorem le_firstKey (hsorted : groups.flatten.Pairwise (fun a b => a.key ≤ b.key))
    (hne : ∀ g ∈ groups, g ≠ []) {i j : Nat} (hij : i < j) {g g' : List Entry}
    (hi : groups[i]? = some g) (hj : groups[j]? = some g') {e : Entry} (he : e ∈ g) :
    e.key ≤ firstKey g' := by
  obtain ⟨_, hacross⟩ := List.pairwise_flatten.mp hsorted
  obtain ⟨hilt, rfl⟩ := getElem?_eq_some_iff.mp hi
  obtain ⟨hjlt, rfl⟩ := getElem?_eq_some_iff.mp hj
  have hpair := List.pairwise_iff_getElem.mp hacross i j hilt hjlt hij
  obtain ⟨x, hx, hfirst⟩ := firstKey_mem (hne _ (getElem_mem hjlt))
  rw [hfirst]
  exact hpair e he x hx

theorem findBlock_spec {t : Table} {off : Nat} (hindex : t.index = indexOf off groups)
    (hsorted : groups.flatten.Pairwise (fun a b => a.key ≤ b.key)) (hne : ∀ g ∈ groups, g ≠ []) :
    t.findBlock key ≤ groups.length ∧
      ∀ i : Nat, i < t.findBlock key → ∀ g ∈ groups[i]?, firstKey g < key := by
  have hp : ∀ i : Nat, (t.index[i]?).any (fun ie : IndexEntry => decide (ie.firstKey < key)) =
      (groups[i]?).any (fun g : List Entry => decide (firstKey g < key)) := by
    intro i
    have hmap := getElem?_indexOf off groups i
    rw [← hindex] at hmap
    cases ht : t.index[i]? with
    | none =>
      rw [ht] at hmap
      cases hg : groups[i]? with
      | none => rfl
      | some g =>
        rw [hg] at hmap
        cases hmap
    | some ie =>
      rw [ht] at hmap
      cases hg : groups[i]? with
      | none =>
        rw [hg] at hmap
        cases hmap
      | some g =>
        rw [hg] at hmap
        have hkey : ie.firstKey = firstKey g := Option.some.inj hmap
        simp [hkey]
  have hlen : t.index.length = groups.length := by rw [hindex, length_indexOf]
  have hmono : ∀ i j : Nat, i ≤ j → j < groups.length →
      (t.index[j]?).any (fun ie : IndexEntry => decide (ie.firstKey < key)) = true →
      (t.index[i]?).any (fun ie : IndexEntry => decide (ie.firstKey < key)) = true := by
    intro i j hij hj hpj
    rcases Nat.lt_or_eq_of_le hij with hlt | rfl
    · rw [hp, getElem?_eq_getElem hj] at hpj
      rw [hp, getElem?_eq_getElem (hlt.trans hj)]
      have hpj : firstKey groups[j] < key := by simpa using hpj
      obtain ⟨e, he, hfirst⟩ := firstKey_mem (hne groups[i] (getElem_mem (hlt.trans hj)))
      have hle := le_firstKey hsorted hne hlt
        (getElem?_eq_getElem (hlt.trans hj)) (getElem?_eq_getElem hj) he
      simpa [hfirst] using lt_of_le_of_lt hle hpj
    · exact hpj
  have hmid : ∀ lo hi : Nat, lo < hi → lo ≤ (lo + (hi - 1)) / 2 ∧ (lo + (hi - 1)) / 2 < hi := by
    omega
  obtain ⟨hle, hbelow, _⟩ := BinarySearch.search_spec hmid hmono
    (Nat.lt_succ_of_le (Nat.sub_le t.index.length 0)) (Nat.zero_le _) (Nat.le_of_eq hlen)
    (fun i hi => absurd hi (Nat.not_lt_zero i))
    (fun i hi hin => absurd hin (by omega))
  refine ⟨hle, fun i hi g hg => ?_⟩
  have := hbelow i hi
  rw [hp, mem_def.mp hg] at this
  simpa using this

theorem lt_of_mem_take_blocks (hsorted : groups.flatten.Pairwise (fun a b => a.key ≤ b.key))
    (hne : ∀ g ∈ groups, g ≠ []) {n : Nat} (hn : n ≤ groups.length)
    (hbelow : ∀ i : Nat, i < n → ∀ g ∈ groups[i]?, firstKey g < key) {e : Entry}
    (he : e ∈ (groups.take (n - 1)).flatten) : e.key < key := by
  obtain ⟨g, hg, he⟩ := mem_flatten.mp he
  obtain ⟨i, hi⟩ := mem_iff_getElem?.mp hg
  obtain ⟨hlt, _⟩ := getElem?_eq_some_iff.mp hi
  rw [length_take] at hlt
  rw [getElem?_take_of_lt (by omega)] at hi
  have hlast : n - 1 < groups.length := by omega
  have hle := le_firstKey hsorted hne (j := n - 1) (by omega) hi (getElem?_eq_getElem hlast) he
  have hfirst := hbelow (n - 1) (by omega) groups[n - 1] (getElem?_eq_getElem hlast)
  exact lt_of_le_of_lt hle hfirst

variable {t : Table} (hindex : t.index = indexOf 0 groups)
  (hiter : ∀ n, Table.iterBlocks t.file (t.index.drop n) = (groups.drop n).flatten)
  (hsorted : groups.flatten.Pairwise (fun a b => a.key ≤ b.key)) (hne : ∀ g ∈ groups, g ≠ [])

include hindex hiter hsorted hne

theorem Table.seek_eq (key : Key) :
    t.seek key = groups.flatten.dropWhile (fun e => e.key < key) := by
  obtain ⟨hle, hbelow⟩ := @findBlock_spec groups key t 0 hindex hsorted hne
  have hsplit := congrArg List.flatten (take_append_drop (t.findBlock key - 1) groups)
  rw [List.flatten_append] at hsplit
  unfold Table.seek
  rw [hiter, ← hsplit, List.dropWhile_append_of_pos]
  intro e he
  exact decide_eq_true (lt_of_mem_take_blocks hsorted hne hle hbelow he)

theorem Table.get_eq (hbloom : ∀ e ∈ groups.flatten, bloomMayContain t.bloom e.key = true)
    (key : Key) : t.get key = groups.flatten.find? (fun e => e.key = key) := by
  unfold Table.get
  by_cases hmay : bloomMayContain t.bloom key = true
  · rw [if_pos hmay, Table.seek_eq hindex hiter hsorted hne]
    exact SortedRuns.head?_dropWhile_key hsorted (fun e _ => decide_eq_true_iff)
      (fun e _ => decide_eq_true_iff)
  · rw [if_neg hmay]
    symm
    apply List.find?_eq_none.mpr
    intro e he hkey
    have hkey : e.key = key := by simpa using hkey
    exact hmay (hkey ▸ hbloom e he)

end

/-! ## The round trip. -/

section

variable {opts : TableOptions} {b : TableBuilder} {es : List Entry}

theorem TableFits.index_fits (hfits : TableFits opts es) (hne : ∀ g ∈ blocksOf opts es, g ≠ []) :
    ∀ ie ∈ indexOf 0 (blocksOf opts es), ie.Fits := by
  intro ie hie
  obtain ⟨g, hg, hkey, hsize, hoff⟩ := mem_indexOf hie
  have hblock := hfits.blocks g hg
  have hoffsets := hfits.offsets
  obtain ⟨e, he, hfirst⟩ := firstKey_mem (hne g hg)
  have hle := length_le_encodeBlock he
  rw [flatMap_encodeBlock, flatten_blocksOf] at hoff
  constructor
  · rw [hkey, hfirst]
    omega
  · omega
  · rw [hsize]
    exact hblock

theorem Built.openTable_image (h : Built b (blocksOf opts es) []) (hfits : TableFits opts es) :
    openTable (b.image opts) = some ⟨b.image opts, indexOf 0 (blocksOf opts es),
      buildBloom b.keys opts.bloomBitsPerKey, b.entries⟩ := by
  have hdata : b.file.length = (encodeBlock es).length := by
    rw [h.file, flatMap_encodeBlock, flatten_blocksOf]
  have hindex := hfits.index
  have hoffsets := hfits.offsets
  rw [← h.index] at hindex hoffsets
  have hentries : b.entries ≤ (encodeBlock es).length := by
    rw [h.entries, append_nil, flatten_blocksOf]
    exact count_le_encodeBlock es
  have hbits := hfits.bloom
  have hbloom : (buildBloom b.keys opts.bloomBitsPerKey).length < 2 ^ 32 := by
    rw [length_buildBloom, h.keys, append_nil, flatten_blocksOf]
    omega
  have hparse : parseIndex (b.index.length + 1) b.index = some (indexOf 0 (blocksOf opts es)) := by
    rw [h.index]
    exact parseIndex_encode (hfits.index_fits h.nonempty) (Nat.lt_succ_self _)
  exact openTable_footer rfl (by omega) hindex hbloom (by omega) hparse

theorem Built.iterBlocks_drop {groups : List (List Entry)} (h : Built b groups [])
    (opts : TableOptions) (hfits : ∀ e ∈ groups.flatten,
      e.key.length < 2 ^ 32 ∧ e.value.length < 2 ^ 32 ∧ e.seqno < 2 ^ 64) (n : Nat) :
    Table.iterBlocks (b.image opts) ((indexOf 0 groups).drop n) = (groups.drop n).flatten := by
  have hblocks : groups.flatMap encodeBlock =
      (groups.take n).flatMap encodeBlock ++ (groups.drop n).flatMap encodeBlock := by
    rw [← flatMap_append, take_append_drop]
  obtain ⟨tail, htail⟩ : ∃ tail, b.image opts = b.file ++ tail := ⟨_, rfl⟩
  rw [h.file, hblocks, append_assoc] at htail
  have hfile : (b.image opts).drop ((groups.take n).flatMap encodeBlock).length =
      (groups.drop n).flatMap encodeBlock ++ tail := by
    rw [htail, drop_left]
  have hoff : ((groups.take n).flatMap encodeBlock).length ≤ (b.image opts).length := by
    rw [htail, length_append]
    exact Nat.le_add_right _ _
  rw [drop_indexOf, Nat.zero_add]
  apply iterBlocks_indexOf hfile hoff
  · exact fun g hg => h.nonempty g (mem_of_mem_drop hg)
  · intro e he
    obtain ⟨g, hg, he⟩ := mem_flatten.mp he
    exact hfits e (mem_flatten.mpr ⟨g, mem_of_mem_drop hg, he⟩)

end

theorem openTable_build {opts : TableOptions} (hfits : TableFits opts es) :
    ∃ t, openTable (buildTable opts es).1 = some t ∧ t.newIterator = es ∧
      t.index.length < 2 ^ 28 ∧
      (∀ e ∈ es, bloomMayContain t.bloom e.key = true) ∧
      (es.Pairwise (fun a b => a.key ≤ b.key) → ∀ key,
        t.seek key = es.dropWhile (fun e => e.key < key) ∧
        t.get key = es.find? (fun e => e.key = key)) := by
  have hbuilt := built_blocksOf opts es
  have hopen := hbuilt.openTable_image hfits
  have hflat := flatten_blocksOf opts es
  have hiter := hbuilt.iterBlocks_drop opts (fun e he => hfits.entry (by rw [← hflat]; exact he))
  -- a key of the table passes the filter
  have hbloom : ∀ e ∈ es, bloomMayContain (buildBloom
      (es.foldl (TableBuilder.add opts) {}).flushBlock.keys opts.bloomBitsPerKey) e.key = true := by
    intro e he
    rw [hbuilt.keys, append_nil, hflat]
    exact bloomMayContain_build hfits.bloom (mem_keysOf he)
  have hcount : (indexOf 0 (blocksOf opts es)).length < 2 ^ 28 := by
    have hle := count_le_encodeIndex (indexOf 0 (blocksOf opts es))
    have hindex := hfits.index
    omega
  refine ⟨_, hopen, (hiter 0).trans hflat, hcount, hbloom, fun hsorted key => ?_⟩
  rw [← hflat] at hsorted
  constructor
  · conv_rhs => rw [← hflat]
    exact Table.seek_eq rfl hiter hsorted hbuilt.nonempty key
  · conv_rhs => rw [← hflat]
    apply Table.get_eq rfl hiter hsorted hbuilt.nonempty
    exact fun e he => hbloom e (by rw [← hflat]; exact he)

/-- **A table answers for its entries**: the scan returns them, `Seek` finds the first that is not
below the key, `Get` the newest version of the key, and the filter hides none. -/
theorem table_round_trip {opts : TableOptions} {es : List Entry} (hsorted : SortedRuns.Run es)
    (hfits : TableFits opts es) :
    ∃ t, openTable (buildTable opts es).1 = some t ∧ t.newIterator = es ∧
      t.index.length < 2 ^ 28 ∧
      (∀ e ∈ es, bloomMayContain t.bloom e.key = true) ∧
      ∀ key, t.seek key = es.dropWhile (fun e => e.key < key) ∧
        t.get key = es.find? (fun e => e.key = key) ∧
        ∀ e, t.get key = some e → ∀ e' ∈ es, e'.key = key → e'.seqno ≤ e.seqno := by
  obtain ⟨t, hopen, hscan, hcount, hbloom, hfind⟩ := openTable_build hfits
  refine ⟨t, hopen, hscan, hcount, hbloom, fun key => ?_⟩
  obtain ⟨hseek, hget⟩ := hfind (hsorted.imp SortedRuns.Le.key_le) key
  refine ⟨hseek, hget, fun e he => ?_⟩
  rw [hget] at he
  obtain ⟨⟨_, hnewest⟩, hk⟩ := hsorted.find?_newest (k := key) (by convert he; rfl)
  exact fun e' he' hk' => hnewest e' he' (hk'.trans hk.symm)

def threeVersions : List Entry := [⟨[98], 9, .put, [1]⟩, ⟨[98], 5, .delete, []⟩, ⟨[98], 2, .put, [2]⟩]

/-- Each version is in a block of its own. -/
theorem table_round_trip_threeVersions : SortedRuns.Run threeVersions ∧
    ∃ t, openTable (buildTable ⟨1, 10⟩ threeVersions).1 = some t ∧
      t.get [98] = some (Entry.mk [98] 9 .put [1]) := by
  have hsorted : SortedRuns.Run threeVersions := by
    unfold SortedRuns.Run SortedRuns.Le
    decide
  obtain ⟨t, hopen, _, _, _, hfind⟩ := @table_round_trip ⟨1, 10⟩ _ hsorted (by decide +kernel)
  refine ⟨hsorted, t, hopen, ?_⟩
  rw [(hfind [98]).2.1]
  rfl

theorem buildTable_meta (opts : TableOptions) (es : List Entry) :
    (buildTable opts es).2.smallest = firstKey es ∧
      (buildTable opts es).2.largest = (es.getLast?.map Entry.key).getD [] := by
  have hbuilt := built_blocksOf opts es
  have hsmallest := hbuilt.smallest
  have hlargest := hbuilt.largest
  rw [append_nil, flatten_blocksOf] at hsmallest hlargest
  exact ⟨hsmallest, hlargest⟩

end Flotilla.Storage
