/-
  Storage.Wal — entries and the write-ahead log, `storage/entry.h` and
  `storage/wal.cc`.

  A log file is a sequence of records, each a length, a checksum and a payload.
  Recovery reads records until one is short, damaged or does not parse, and cuts
  the file there.
-/
import Flotilla.Framing
import Flotilla.Lib.SortedRuns

namespace Flotilla.Storage

abbrev Key := Bytes

/-! ## Entries. -/

/-- `kPut = 1`, `kDelete = 2`. -/
inductive Op where
  | put
  | delete
  deriving DecidableEq, Repr

def Op.code : Op → Nat
  | .put => 1
  | .delete => 2

def Op.ofCode : Nat → Option Op
  | 1 => some .put
  | 2 => some .delete
  | _ => none

structure Entry where
  key : Key
  seqno : Nat
  op : Op
  value : Bytes
  deriving DecidableEq

instance : SortedRuns.Versioned Entry Key where
  key := Entry.key
  seq := Entry.seqno

/-- By key ascending, then by sequence number descending. -/
def internalCompare (ak : Key) (aseq : Nat) (bk : Key) (bseq : Nat) : Int :=
  if ak < bk then -1
  else if bk < ak then 1
  else if bseq < aseq then -1
  else if aseq < bseq then 1
  else 0

/-! ## Records. -/

def encodePayload (e : Entry) : Bytes :=
  putFixed64 e.seqno ++ (putFixed8 e.op.code ++ (putLengthPrefixed e.key ++
    putLengthPrefixed e.value))

def decodePayload (p : Bytes) : Option Entry :=
  let seqno := (Decoder.mk p false).u64
  let op := seqno.2.u8
  let key := op.2.lengthPrefixed
  let value := key.2.lengthPrefixed
  if value.2.ok = false ∨ value.2.remaining ≠ 0 then none
  else (Op.ofCode op.1).map fun o => ⟨key.1, seqno.1, o, value.1⟩

/-- The log's records are framed payloads. -/
def walCodec : Codec Entry := ⟨encodePayload, decodePayload⟩

/-- The bytes that `WalWriter::Append` writes. -/
def walRecord (e : Entry) : Bytes := walCodec.record e

/-- One round of `RecoverWal` at a record boundary: the entry and the size of its record, or
nothing where the loop breaks. -/
def readRecord (data : Bytes) : Option (Entry × Nat) := walCodec.readRecord data

def walRecords (entries : List Entry) : Bytes := walCodec.records entries

/-- The loop from a record boundary: the entries it reads and the bytes they take.  Every round
takes at least eight bytes. -/
def recoverFrom : Nat → Bytes → List Entry × Nat
  | 0, _ => ([], 0)
  | fuel + 1, data =>
      match readRecord data with
      | none => ([], 0)
      | some (e, size) =>
          let rest := recoverFrom fuel (data.drop size)
          (e :: rest.1, size + rest.2)

/-- `RecoverWal`: the entries, and `valid_end`, where the file is cut. -/
def recoverWal (data : Bytes) : List Entry × Nat := recoverFrom (data.length + 1) data

/-- The entry's payload has a length and a sequence number that fit their fields. -/
def Entry.Fits (e : Entry) : Prop :=
  17 + e.key.length + e.value.length < 2 ^ 32 ∧ e.seqno < 2 ^ 64

instance (e : Entry) : Decidable e.Fits :=
  inferInstanceAs (Decidable (_ ∧ _))

/-! ## Reading a record back. -/

@[simp] theorem length_encodePayload (e : Entry) :
    (encodePayload e).length = 17 + e.key.length + e.value.length := by
  unfold encodePayload
  simp only [length_append, length_putFixed64, length_putFixed8, length_putLengthPrefixed]
  omega

theorem decodePayload_encode {e : Entry} (h : e.Fits) : decodePayload (encodePayload e) = some e := by
  obtain ⟨hlen, hseq⟩ := h
  have hop : e.op.code < 256 := by cases e.op <;> decide
  have hkey : e.key.length < 2 ^ 32 := by omega
  have hvalue : (Decoder.mk (putLengthPrefixed e.value) false).lengthPrefixed =
      (e.value, ⟨[], false⟩) := by
    have := Decoder.lengthPrefixed_put (s := e.value) (by omega) []
    rw [append_nil] at this
    exact this
  unfold decodePayload encodePayload
  simp only [Decoder.u64_put hseq, Decoder.u8_put hop, Decoder.lengthPrefixed_put hkey, hvalue]
  cases hcode : e.op <;> simp [Decoder.ok, Decoder.remaining, Op.code, Op.ofCode, ← hcode]

theorem walCodec_encode (e : Entry) : walCodec.encode e = encodePayload e := by
  unfold walCodec
  dsimp only

theorem walCodec_decode (p : Bytes) : walCodec.decode p = decodePayload p := by
  unfold walCodec
  dsimp only

theorem Entry.Fits.codec {e : Entry} (h : e.Fits) : walCodec.Fits e := by
  constructor
  · rw [walCodec_encode, length_encodePayload]
    exact h.1
  · rw [walCodec_encode, walCodec_decode]
    exact decodePayload_encode h

section

variable {e : Entry} {data : Bytes}

theorem size_of_readRecord {size : Nat} (h : readRecord data = some (e, size)) :
    8 ≤ size ∧ size ≤ data.length := by
  obtain ⟨hsize, hmax, _⟩ := Codec.size_of_readRecord h
  exact ⟨by omega, hmax⟩

theorem recoverFrom_fuel {fuel fuel' : Nat} (h : data.length < fuel) (h' : data.length < fuel') :
    recoverFrom fuel data = recoverFrom fuel' data := by
  induction fuel generalizing fuel' data with
  | zero => omega
  | succ fuel ih =>
    obtain ⟨fuel', rfl⟩ : ∃ n, fuel' = n + 1 := ⟨fuel' - 1, by omega⟩
    rw [recoverFrom, recoverFrom]
    cases hread : readRecord data with
    | none => rfl
    | some next =>
      obtain ⟨e, size⟩ := next
      obtain ⟨hmin, hmax⟩ := size_of_readRecord hread
      have hrest : recoverFrom fuel (data.drop size) = recoverFrom fuel' (data.drop size) := by
        apply ih <;> rw [length_drop] <;> omega
      dsimp only
      rw [hrest]

theorem recoverWal_eq (data : Bytes) :
    recoverWal data =
      match readRecord data with
      | none => ([], 0)
      | some (e, size) =>
        (e :: (recoverWal (data.drop size)).1, size + (recoverWal (data.drop size)).2) := by
  unfold recoverWal
  rw [recoverFrom]
  cases hread : readRecord data with
  | none => rfl
  | some next =>
    obtain ⟨e, size⟩ := next
    obtain ⟨hmin, hmax⟩ := size_of_readRecord hread
    have hrest : recoverFrom data.length (data.drop size) =
        recoverFrom ((data.drop size).length + 1) (data.drop size) := by
      apply recoverFrom_fuel <;> rw [length_drop] <;> omega
    dsimp only
    rw [hrest]

/-! ## Files. -/

theorem recoverWal_append {entries : List Entry} (h : ∀ e ∈ entries, e.Fits) (tail : Bytes) :
    recoverWal (walRecords entries ++ tail) =
      (entries ++ (recoverWal tail).1, (walRecords entries).length + (recoverWal tail).2) := by
  induction entries with
  | nil =>
    show recoverWal tail = (_, 0 + _)
    rw [Nat.zero_add]
    rfl
  | cons e entries ih =>
    have hsplit : walRecords (e :: entries) ++ tail =
        walRecord e ++ (walRecords entries ++ tail) := by
      show walRecord e ++ walRecords entries ++ tail = _
      rw [append_assoc]
    have hread : readRecord (walRecord e ++ (walRecords entries ++ tail)) =
        some (e, (walRecord e).length) := Codec.readRecord_record (h e mem_cons_self).codec _
    rw [hsplit, recoverWal_eq, hread]
    dsimp only
    rw [drop_left, ih (fun e' he' => h e' (mem_cons_of_mem e he'))]
    show (_, _) = (_, (walRecord e ++ walRecords entries).length + _)
    rw [length_append, Nat.add_assoc]
    rfl

/-- Nothing is read behind the records exactly if nothing there is a record. -/
theorem recoverWal_records {entries : List Entry} (h : ∀ e ∈ entries, e.Fits) {tail : Bytes} :
    recoverWal (walRecords entries ++ tail) = (entries, (walRecords entries).length) ↔
      readRecord tail = none := by
  rw [recoverWal_append h, recoverWal_eq tail]
  cases readRecord tail with
  | none => simp
  | some next => simp

end

end Flotilla.Storage
