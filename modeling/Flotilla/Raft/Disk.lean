/-
  Raft.Disk — the three files of `raft/raft_storage.cc`.

  `state` holds the hard state, `snap` the snapshot, `log` a record for every
  entry.  The first two are only ever replaced as a whole, the log is appended to
  or replaced.  Between two of these file operations the process may crash, and
  in the middle of an append.
-/
import Flotilla.Framing
import Flotilla.Raft.Storage

namespace Flotilla.Raft

open Decoder

/-! ## Formats. -/

def encodeState (hs : HardState) : Bytes :=
  let data := putFixed64 hs.term ++ putFixed32 hs.votedFor
  data ++ putFixed32 (crc32 data).toNat

def decodeState (data : Bytes) : Option HardState :=
  let term := (Decoder.mk data false).u64
  let votedFor := term.2.u32
  let crc := votedFor.2.u32
  if crc.2.ok = false ∨ crc.2.remaining ≠ 0 ∨ crc.1 ≠ (crc32 (data.take 12)).toNat then none
  else some ⟨term.1, votedFor.1⟩

def encodeSnap (snap : Snapshot) : Bytes :=
  let data := putFixed64 snap.lastIndex ++ (putFixed64 snap.lastTerm ++ putLengthPrefixed snap.data)
  data ++ putFixed32 (crc32 data).toNat

def decodeSnap (data : Bytes) : Option Snapshot :=
  let lastIndex := (Decoder.mk data false).u64
  let lastTerm := lastIndex.2.u64
  let bytes := lastTerm.2.lengthPrefixed
  let crc := bytes.2.u32
  if crc.2.ok = false ∨ crc.2.remaining ≠ 0 ∨
      crc.1 ≠ (crc32 (data.take (data.length - 4))).toNat then none
  else some ⟨lastIndex.1, lastTerm.1, bytes.1⟩

def encodeLogPayload (e : LogEntry) : Bytes :=
  putFixed64 e.term ++ (putFixed64 e.index ++ putLengthPrefixed e.command)

def decodeLogPayload (payload : Bytes) : Option LogEntry :=
  let term := (Decoder.mk payload false).u64
  let index := term.2.u64
  let command := index.2.lengthPrefixed
  if command.2.ok = false ∨ command.2.remaining ≠ 0 then none
  else some ⟨term.1, index.1, command.1⟩

/-- `EncodeLogRecord` and one round of the loop in `Load`. -/
def logCodec : Codec LogEntry := ⟨encodeLogPayload, decodeLogPayload⟩

/-- The loop of `Load` from a record boundary: the entries, and `valid_end`.  Every round takes at
least eight bytes. -/
def loadLog : Nat → Nat → Bytes → List LogEntry × Nat
  | 0, _, _ => ([], 0)
  | fuel + 1, expect, data =>
      match logCodec.readRecord data with
      | none => ([], 0)
      | some (e, size) =>
          if e.index < expect then  -- covered by a later snapshot
            let rest := loadLog fuel expect (data.drop size)
            (rest.1, size + rest.2)
          else if e.index ≠ expect then ([], size)  -- a gap, which stays in the file
          else
            let rest := loadLog fuel (expect + 1) (data.drop size)
            (e :: rest.1, size + rest.2)

/-! ## Files. -/

structure Disk where
  state : Option Bytes := none
  snap : Option Bytes := none
  log : Option Bytes := none

/-- `Open`: what is loaded, and the files with the log cut behind the last record; nothing for a
corruption. -/
def Disk.load (disk : Disk) : Option (Storage × Disk) :=
  (match disk.state with
    | none => some ({} : HardState)
    | some data => decodeState data).bind fun hard =>
  (match disk.snap with
    | none => some ({} : Snapshot)
    | some data => decodeSnap data).bind fun snap =>
      let data := disk.log.getD []
      let log := loadLog (data.length + 1) (snap.lastIndex + 1) data
      some (⟨hard, snap, log.1⟩, { disk with log := some (data.take log.2) })

/-- One durable change. -/
inductive FileOp where
  | replaceState (data : Bytes)
  | replaceSnap (data : Bytes)
  | replaceLog (data : Bytes)
  | appendLog (data : Bytes)

def Disk.apply (disk : Disk) : FileOp → Disk
  | .replaceState data => { disk with state := some data }
  | .replaceSnap data => { disk with snap := some data }
  | .replaceLog data => { disk with log := some data }
  | .appendLog data => { disk with log := some (disk.log.getD [] ++ data) }

/-- A crash in the middle: a replacement has not happened, an append has written `size` bytes. -/
def Disk.torn (disk : Disk) (size : Nat) : FileOp → Disk
  | .appendLog data => disk.apply (.appendLog (data.take size))
  | _ => disk

/-- A crash after `done` operations, in the middle of the next. -/
def Disk.crash : Disk → List FileOp → Nat → Nat → Disk
  | disk, [], _, _ => disk
  | disk, op :: _, 0, size => disk.torn size op
  | disk, op :: ops, done + 1, size => (disk.apply op).crash ops done size

namespace Storage

/-- `RewriteLog`. -/
def rewriteLog (d : Storage) : FileOp := .replaceLog (logCodec.records d.entries)

def saveSnapshotOps (d : Storage) (snap : Snapshot) (dropAll : Bool) : List FileOp :=
  [.replaceSnap (encodeSnap snap), (d.saveSnapshot snap dropAll).rewriteLog]

def truncateOps (d : Storage) (index : Nat) : List FileOp :=
  if index ≠ 0 then [(d.truncateFrom index).rewriteLog] else []

def appendOps (es : List LogEntry) : List FileOp :=
  if es = [] then [] else [.appendLog (logCodec.records es)]

def hardStateOps (ready : Ready) : List FileOp :=
  if ready.hardStateChanged then [.replaceState (encodeState ready.hardState)] else []

/-- The file operations of `Persist`. -/
def persistOps (d : Storage) (ready : Ready) : List FileOp :=
  match ready.snapshotToApply with
  | some snap => d.saveSnapshotOps snap true ++
      ((d.saveSnapshot snap true).truncateOps ready.truncateFrom ++
        (appendOps ready.entriesToAppend ++ hardStateOps ready))
  | none => d.truncateOps ready.truncateFrom ++
      (appendOps ready.entriesToAppend ++ hardStateOps ready)

end Storage

/-! ## Reading back. -/

structure HardState.Fits (hs : HardState) : Prop where
  term : hs.term < 2 ^ 64
  votedFor : hs.votedFor < 2 ^ 32

structure Snapshot.Fits (snap : Snapshot) : Prop where
  lastIndex : snap.lastIndex < 2 ^ 64
  lastTerm : snap.lastTerm < 2 ^ 64
  data : snap.data.length < 2 ^ 32

/-- The payload's length has 32 bits. -/
structure LogEntry.Fits (e : LogEntry) : Prop where
  term : e.term < 2 ^ 64
  index : e.index < 2 ^ 64
  command : 20 + e.command.length < 2 ^ 32

instance (hs : HardState) : Decidable hs.Fits :=
  decidable_of_iff (hs.term < 2 ^ 64 ∧ hs.votedFor < 2 ^ 32)
    ⟨fun h => ⟨h.1, h.2⟩, fun h => ⟨h.1, h.2⟩⟩

instance (snap : Snapshot) : Decidable snap.Fits :=
  decidable_of_iff (snap.lastIndex < 2 ^ 64 ∧ snap.lastTerm < 2 ^ 64 ∧ snap.data.length < 2 ^ 32)
    ⟨fun h => ⟨h.1, h.2.1, h.2.2⟩, fun h => ⟨h.1, h.2, h.3⟩⟩

instance (e : LogEntry) : Decidable e.Fits :=
  decidable_of_iff (e.term < 2 ^ 64 ∧ e.index < 2 ^ 64 ∧ 20 + e.command.length < 2 ^ 32)
    ⟨fun h => ⟨h.1, h.2.1, h.2.2⟩, fun h => ⟨h.1, h.2, h.3⟩⟩

theorem crc_lt (data : Bytes) : (crc32 data).toNat < 2 ^ 32 := (crc32 data).toNat_lt

theorem u32_crc (data : Bytes) :
    (Decoder.mk (putFixed32 (crc32 data).toNat) false).u32 = ((crc32 data).toNat, ⟨[], false⟩) := by
  have hput := u32_put (crc_lt data) []
  rw [append_nil] at hput
  exact hput

theorem decodeState_encode {hs : HardState} (h : hs.Fits) :
    decodeState (encodeState hs) = some hs := by
  unfold decodeState encodeState
  have htake : (putFixed64 hs.term ++ putFixed32 hs.votedFor ++
      putFixed32 (crc32 (putFixed64 hs.term ++ putFixed32 hs.votedFor)).toNat).take 12 =
      putFixed64 hs.term ++ putFixed32 hs.votedFor := by
    apply take_left'
    rw [length_append, length_putFixed64, length_putFixed32]
  rw [htake]
  simp only [append_assoc, u64_put h.term, u32_put h.votedFor]
  simp [u32_crc, Decoder.ok, remaining]

theorem decodeSnap_encode {snap : Snapshot} (h : snap.Fits) :
    decodeSnap (encodeSnap snap) = some snap := by
  unfold decodeSnap encodeSnap
  generalize hdata : putFixed64 snap.lastIndex ++ (putFixed64 snap.lastTerm ++
    putLengthPrefixed snap.data) = data
  have htake : (data ++ putFixed32 (crc32 data).toNat).take
      ((data ++ putFixed32 (crc32 data).toNat).length - 4) = data := by
    apply take_left'
    rw [length_append, length_putFixed32]
    omega
  rw [htake]
  have hread : (Decoder.mk (data ++ putFixed32 (crc32 data).toNat) false).u64 =
      (snap.lastIndex, ⟨putFixed64 snap.lastTerm ++ (putLengthPrefixed snap.data ++
        putFixed32 (crc32 data).toNat), false⟩) := by
    rw [← hdata]
    exact u64_put h.lastIndex _
  simp only [hread, u64_put h.lastTerm, lengthPrefixed_put h.data]
  simp [u32_crc, Decoder.ok, remaining]

@[simp] theorem length_encodeLogPayload (e : LogEntry) :
    (encodeLogPayload e).length = 20 + e.command.length := by
  unfold encodeLogPayload
  simp only [length_append, length_putFixed64, length_putLengthPrefixed]
  omega

theorem logCodec_encode (e : LogEntry) : logCodec.encode e = encodeLogPayload e := by
  unfold logCodec
  dsimp only

theorem logCodec_decode (p : Bytes) : logCodec.decode p = decodeLogPayload p := by
  unfold logCodec
  dsimp only

theorem LogEntry.Fits.codec {e : LogEntry} (h : e.Fits) : logCodec.Fits e := by
  have hlength := h.command
  constructor
  · rw [logCodec_encode, length_encodeLogPayload]
    exact hlength
  · rw [logCodec_encode, logCodec_decode]
    have hcommand : (Decoder.mk (putLengthPrefixed e.command) false).lengthPrefixed =
        (e.command, ⟨[], false⟩) := by
      have hput := lengthPrefixed_put (s := e.command) (by omega) []
      rw [append_nil] at hput
      exact hput
    unfold decodeLogPayload encodeLogPayload
    simp only [u64_put h.term, u64_put h.index, hcommand]
    simp [Decoder.ok, remaining]

/-! ## Entries one behind the other. -/

def Contiguous : Nat → List LogEntry → Prop
  | _, [] => True
  | base, e :: es => e.index = base + 1 ∧ Contiguous (base + 1) es

instance Contiguous.decidable : ∀ base es, Decidable (Contiguous base es)
  | _, [] => inferInstanceAs (Decidable True)
  | base, e :: es =>
      have := Contiguous.decidable (base + 1) es
      inferInstanceAs (Decidable (e.index = base + 1 ∧ Contiguous (base + 1) es))

namespace Contiguous

variable {base i : Nat} {es fs : List LogEntry} {e : LogEntry}

theorem append_iff : Contiguous base (es ++ fs) ↔
    Contiguous base es ∧ Contiguous (base + es.length) fs := by
  induction es generalizing base with
  | nil =>
    show Contiguous base fs ↔ True ∧ Contiguous base fs
    rw [true_and]
  | cons e es ih =>
    have hlength : base + (e :: es).length = base + 1 + es.length := by
      rw [length_cons]
      omega
    rw [hlength]
    show e.index = base + 1 ∧ Contiguous (base + 1) (es ++ fs) ↔
      (e.index = base + 1 ∧ Contiguous (base + 1) es) ∧ Contiguous (base + 1 + es.length) fs
    rw [ih, and_assoc]

section

variable (h : Contiguous base es)

include h

theorem take (j : Nat) : Contiguous base (es.take j) := by
  rw [← take_append_drop j es] at h
  exact (append_iff.mp h).1

theorem index_mem (he : e ∈ es) : base < e.index ∧ e.index ≤ base + es.length := by
  induction es generalizing base with
  | nil => cases he
  | cons f es ih =>
    have hhead := h.1
    rw [length_cons]
    rcases mem_cons.mp he with rfl | hmem
    · omega
    · have htail := ih h.2 hmem
      omega

theorem pairwise : es.Pairwise (fun e f => e.index < f.index) := by
  induction es generalizing base with
  | nil => exact .nil
  | cons e es ih =>
    apply List.Pairwise.cons
    · intro f hf
      have hhead := h.1
      have hbounds := index_mem h.2 hf
      omega
    · exact ih h.2

theorem split_above (hi : base ≤ i) :
    es = es.takeWhile (fun e => decide (e.index ≤ i)) ++ es.filter (fun e => decide (i < e.index)) ∧
      Contiguous i (es.filter (fun e => decide (i < e.index))) := by
  induction es generalizing base with
  | nil => exact ⟨rfl, trivial⟩
  | cons e es ih =>
    have hhead := h.1
    by_cases hlt : i < e.index
    · -- nothing is covered
      have hall : (e :: es).filter (fun e => decide (i < e.index)) = e :: es := by
        apply filter_eq_self.mpr
        intro f hf
        have hbounds := index_mem h hf
        exact decide_eq_true (by omega)
      have hbase : base = i := by omega
      rw [hall, takeWhile_cons_of_neg (by simpa using hlt)]
      exact ⟨rfl, hbase ▸ h⟩
    · obtain ⟨hsplit, habove⟩ := ih h.2 (by omega)
      rw [List.filter_cons_of_neg (by simpa using hlt),
        takeWhile_cons_of_pos (by simpa using hlt), cons_append, ← hsplit]
      exact ⟨rfl, habove⟩

theorem dropWhile_eq (hi : base ≤ i) :
    es.dropWhile (fun e => decide (e.index ≤ i)) = es.filter (fun e => decide (i < e.index)) := by
  have hsplit := (h.split_above hi).1
  nth_rewrite 1 [← List.takeWhile_append_dropWhile (p := fun e => decide (e.index ≤ i)) (l := es)]
    at hsplit
  exact append_cancel_left hsplit

theorem drop {k : Nat} (hk : k ≤ es.length) : Contiguous (base + k) (es.drop k) := by
  rw [← take_append_drop k es] at h
  have htail := (append_iff.mp h).2
  rw [length_take, Nat.min_eq_left hk] at htail
  exact htail

theorem filter_lt (hi : base < i) :
    es.filter (fun e => decide (e.index < i)) = es.take (i - base - 1) := by
  induction es generalizing base with
  | nil => rw [List.filter_nil, take_nil]
  | cons e es ih =>
    have hhead := h.1
    by_cases hlt : e.index < i
    · have hnext : i - base - 1 = (i - (base + 1) - 1) + 1 := by omega
      rw [filter_cons_of_pos (by simpa using hlt), ih h.2 (by omega), hnext, take_succ_cons]
    · have hzero : i - base - 1 = 0 := by omega
      rw [hzero, take_zero]
      apply List.filter_eq_nil_iff.mpr
      intro f hf hfi
      have hbounds := index_mem h hf
      have hfi' := of_decide_eq_true hfi
      omega

theorem filter_gt (hi : base ≤ i) :
    es.filter (fun e => decide (i < e.index)) = es.drop (i - base) := by
  induction es generalizing base with
  | nil => rw [List.filter_nil, drop_nil]
  | cons e es ih =>
    have hhead := h.1
    by_cases hlt : i < e.index
    · have hzero : i - base = 0 := by omega
      rw [hzero, List.drop_zero]
      apply filter_eq_self.mpr
      intro f hf
      have hbounds := index_mem h hf
      exact decide_eq_true (by omega)
    · have hnext : i - base = (i - (base + 1)) + 1 := by omega
      rw [List.filter_cons_of_neg (by simpa using hlt), ih h.2 (by omega), hnext,
        List.drop_succ_cons]

theorem rdropWhile (p : LogEntry → Bool) : Contiguous base (es.rdropWhile p) := by
  obtain ⟨tail, htail⟩ := List.rdropWhile_prefix p es
  rw [← htail] at h
  exact (append_iff.mp h).1

end

end Contiguous

/-! ## Loading. -/

section Load

variable {base : Nat} {es covered : List LogEntry} {tail : Bytes}

theorem loadLog_nil {fuel expect : Nat} (htail : logCodec.readRecord tail = none) :
    loadLog fuel expect tail = ([], 0) := by
  cases fuel with
  | zero => rfl
  | succ fuel =>
    unfold loadLog
    rw [htail]

theorem readRecord_size {data : Bytes} {e : LogEntry} {size : Nat}
    (h : logCodec.readRecord data = some (e, size)) : 0 < size ∧ size ≤ data.length := by
  obtain ⟨hsize, hmax, _⟩ := Codec.size_of_readRecord h
  omega

theorem loop_fuel {α : Type} {loop : Nat → Nat → Bytes → α}
    (hround : ∀ {fuel fuel' expect data}, (∀ next, logCodec.readRecord data = some next →
      ∀ expect, loop fuel expect (data.drop next.2) = loop fuel' expect (data.drop next.2)) →
      loop (fuel + 1) expect data = loop (fuel' + 1) expect data)
    {fuel fuel' expect : Nat} {data : Bytes} (h : data.length < fuel) (h' : data.length < fuel') :
    loop fuel expect data = loop fuel' expect data := by
  induction fuel generalizing fuel' expect data with
  | zero => omega
  | succ fuel ih =>
    cases fuel' with
    | zero => omega
    | succ fuel' =>
      refine hround fun next hread expect => ?_
      obtain ⟨hpos, hmax⟩ := readRecord_size hread
      have hlen : (data.drop next.2).length = data.length - next.2 := length_drop
      exact ih (by omega) (by omega)

theorem loadLog_fuel {fuel fuel' expect : Nat} {data : Bytes} (h : data.length < fuel)
    (h' : data.length < fuel') : loadLog fuel expect data = loadLog fuel' expect data := by
  refine loop_fuel (fun {fuel fuel' expect data} hrest => ?_) h h'
  unfold loadLog
  cases hread : logCodec.readRecord data with
  | none => rfl
  | some next => simp only [hrest next hread]

/-- The loop with as much fuel as it needs. -/
def scanLog (expect : Nat) (data : Bytes) : List LogEntry × Nat :=
  loadLog (data.length + 1) expect data

theorem scanLog_none (h : logCodec.readRecord data = none) : scanLog expect data = ([], 0) :=
  loadLog_nil h

section

variable {expect size : Nat} {data : Bytes} {e : LogEntry}
  (h : logCodec.readRecord data = some (e, size))

include h

theorem loadLog_rest :
    loadLog data.length expect (data.drop size) = scanLog expect (data.drop size) := by
  obtain ⟨hpos, hmax⟩ := readRecord_size h
  have hlen : (data.drop size).length = data.length - size := length_drop
  exact loadLog_fuel (by omega) (by omega)

theorem scanLog_covered (hcov : e.index < expect) :
    scanLog expect data =
      ((scanLog expect (data.drop size)).1, size + (scanLog expect (data.drop size)).2) := by
  rw [← loadLog_rest h]
  unfold scanLog
  rw [loadLog, h]
  exact if_pos hcov

theorem scanLog_next (hnext : e.index = expect) :
    scanLog expect data =
      (e :: (scanLog (expect + 1) (data.drop size)).1,
        size + (scanLog (expect + 1) (data.drop size)).2) := by
  rw [← loadLog_rest h]
  unfold scanLog
  rw [loadLog, h]
  dsimp only
  rw [if_neg (by omega), if_neg (by omega)]

end

theorem scanLog_entries (hes : Contiguous base es) (hfits : ∀ e ∈ es, e.Fits)
    (htail : logCodec.readRecord tail = none) :
    scanLog (base + 1) (logCodec.records es ++ tail) = (es, (logCodec.records es).length) := by
  induction es generalizing base with
  | nil => exact scanLog_none htail
  | cons e es ih =>
    have hread := Codec.readRecord_record (hfits e mem_cons_self).codec (logCodec.records es ++ tail)
    have hrest := ih hes.2 fun f hf => hfits f (mem_cons_of_mem e hf)
    rw [Codec.records_cons, append_assoc, scanLog_next hread hes.1, drop_left, hrest, length_append]

/-- A log reads as its entries behind those that the snapshot covers. -/
theorem scanLog_records (hcov : ∀ e ∈ covered, e.index ≤ base) (hes : Contiguous base es)
    (hfits : ∀ e ∈ covered ++ es, e.Fits) (htail : logCodec.readRecord tail = none) :
    scanLog (base + 1) (logCodec.records (covered ++ es) ++ tail) =
      (es, (logCodec.records (covered ++ es)).length) := by
  induction covered with
  | nil => exact scanLog_entries hes hfits htail
  | cons e covered ih =>
    have hread := Codec.readRecord_record (hfits e mem_cons_self).codec
      (logCodec.records (covered ++ es) ++ tail)
    have hrest := ih (fun f hf => hcov f (mem_cons_of_mem e hf))
      fun f hf => hfits f (mem_cons_of_mem e hf)
    rw [cons_append, Codec.records_cons, append_assoc,
      scanLog_covered hread (Nat.lt_succ_of_le (hcov e mem_cons_self)), drop_left, hrest,
      length_append]

theorem loadLog_contiguous (fuel base : Nat) (data : Bytes) :
    Contiguous base (loadLog fuel (base + 1) data).1 := by
  induction fuel generalizing base data with
  | zero => trivial
  | succ fuel ih =>
    unfold loadLog
    split
    · trivial
    · dsimp only
      split
      · exact ih base _
      · split
        · trivial
        · rename_i hexpect
          exact ⟨not_not.mp hexpect, ih (base + 1) _⟩

theorem Disk.load_eq {disk : Disk} {hard : HardState} {snap : Snapshot}
    (hhard : (match disk.state with
      | none => some ({} : HardState)
      | some data => decodeState data) = some hard)
    (hsnap : (match disk.snap with
      | none => some ({} : Snapshot)
      | some data => decodeSnap data) = some snap) :
    disk.load = some (⟨hard, snap, (scanLog (snap.lastIndex + 1) (disk.log.getD [])).1⟩,
      { disk with log := some ((disk.log.getD []).take
        (scanLog (snap.lastIndex + 1) (disk.log.getD [])).2) }) := by
  refine bind_eq_some_iff.mpr ⟨hard, hhard, ?_⟩
  exact bind_eq_some_iff.mpr ⟨snap, hsnap, rfl⟩

theorem Disk.load_contiguous {disk disk' : Disk} {d : Storage} (h : disk.load = some (d, disk')) :
    Contiguous d.snap.lastIndex d.entries := by
  obtain ⟨hard, _, h⟩ := bind_eq_some_iff.mp h
  obtain ⟨snap, _, h⟩ := bind_eq_some_iff.mp h
  cases h
  exact loadLog_contiguous _ _ _

end Load

/-- The files that `d` was written to: behind the records of its log, `tail` is what an append
could not finish. -/
structure Stores (disk : Disk) (d : Storage) (tail : Bytes) : Prop where
  state : disk.state = some (encodeState d.hard) ∨ disk.state = none ∧ d.hard = {}
  snap : disk.snap = some (encodeSnap d.snap) ∨ disk.snap = none ∧ d.snap = {}
  log : ∃ covered, disk.log.getD [] = logCodec.records (covered ++ d.entries) ++ tail ∧
    (∀ e ∈ covered, e.index ≤ d.snap.lastIndex ∧ e.Fits)
  torn : logCodec.readRecord tail = none
  hardFits : d.hard.Fits
  snapFits : d.snap.Fits
  entriesFit : ∀ e ∈ d.entries, e.Fits
  contiguous : Contiguous d.snap.lastIndex d.entries

namespace Stores

variable {disk : Disk} {d : Storage} {tail : Bytes}

theorem loadState (h : Stores disk d tail) :
    (match disk.state with
      | none => some ({} : HardState)
      | some data => decodeState data) = some d.hard := by
  rcases h.state with hstate | ⟨hstate, hhard⟩
  · rw [hstate]
    exact decodeState_encode h.hardFits
  · rw [hstate, hhard]

theorem loadSnap (h : Stores disk d tail) :
    (match disk.snap with
      | none => some ({} : Snapshot)
      | some data => decodeSnap data) = some d.snap := by
  rcases h.snap with hsnap | ⟨hsnap, hbase⟩
  · rw [hsnap]
    exact decodeSnap_encode h.snapFits
  · rw [hsnap, hbase]

theorem load (h : Stores disk d tail) :
    ∃ disk', disk.load = some (d, disk') ∧ Stores disk' d [] := by
  obtain ⟨covered, hlog, hcov⟩ := h.log
  have hload := Disk.load_eq h.loadState h.loadSnap
  rw [hlog, scanLog_records (fun e he => (hcov e he).1) h.contiguous
    (fun e he => (mem_append.mp he).elim (fun hc => (hcov e hc).2) (h.entriesFit e)) h.torn,
    take_left] at hload
  refine ⟨_, hload, ?_⟩
  exact
    { h with
      log := ⟨covered, by rw [append_nil]; rfl, hcov⟩
      torn := Codec.readRecord_nil }

end Stores

end Flotilla.Raft
