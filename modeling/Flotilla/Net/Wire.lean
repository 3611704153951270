/-
  Net.Wire — the frames between nodes and clients: `raft/wire.cc`,
  `net/messages.cc`, and the Python client of `chaos/client.py`.

  Every format is a tag byte and a fixed sequence of fields, some of them lists
  with a count in front.  A decoder runs through the fields without looking and
  asks once at the end whether all of them were there and nothing was left.
-/
import Flotilla.Coding
import Flotilla.Raft.Core

namespace Flotilla.Net

variable {α β κ : Type}

/-! ## Readers. -/

section

variable {σ : Type} {m : Type → Type} [Monad m] {buffer : Bytes → σ} {r : StateT σ m α}
  {f : α → StateT σ m β} {p q : Bytes} {a : α} {b : β}

/-- The reader gets `a` from the front of a buffer that starts with `bytes`. -/
def Gets (buffer : Bytes → σ) (r : StateT σ m α) (bytes : Bytes) (a : α) : Prop :=
  ∀ rest, r.run (buffer (bytes ++ rest)) = pure (a, buffer rest)

variable [LawfulMonad m]

theorem Gets.bind (hr : Gets buffer r p a) (hf : Gets buffer (f a) q b) :
    Gets buffer (r >>= f) (p ++ q) b := by
  intro rest
  rw [StateT.run_bind, append_assoc, hr, pure_bind]
  exact hf rest

theorem Gets.last (hr : Gets buffer r p a) (g : α → β) :
    Gets buffer (r >>= fun a => pure (g a)) p (g a) := by
  intro rest
  rw [StateT.run_bind, hr, pure_bind]
  rfl

end

/-- A sequence of reads from a decoder. -/
abbrev Reader (α : Type) := StateM Decoder α

namespace Reader

def u8 : Reader Nat := Decoder.u8

def u32 : Reader Nat := Decoder.u32

def u64 : Reader Nat := Decoder.u64

def str : Reader Bytes := Decoder.lengthPrefixed

/-- `for (uint32_t i = 0; i < count && dec.ok(); i++)`. -/
def list (r : Reader α) : Nat → Reader (List α)
  | 0 => return []
  | count + 1 => do
      if (← get).ok then
        let a ← r
        let rest ← list r count
        return a :: rest
      else return []

/-- `return dec.ok() && dec.remaining() == 0`. -/
def accept (r : Reader α) (dec : Decoder) : Option α :=
  let read := r.run dec
  if read.2.ok ∧ read.2.remaining = 0 then some read.1 else none

abbrev Reads (r : Reader α) (bytes : Bytes) (a : α) : Prop := Gets (Decoder.mk · false) r bytes a

/-- Failure is never forgotten, and more bytes at the end of the buffer are left there. -/
structure Stable (r : Reader α) : Prop where
  sticky : ∀ d, (r.run ⟨d, true⟩).2.failed = true
  longer : ∀ {d a rest}, r.run ⟨d, false⟩ = (a, ⟨rest, false⟩) →
    ∀ e, r.run ⟨d ++ e, false⟩ = (a, ⟨rest ++ e, false⟩)

/-! ## What is written is read. -/

section

variable {r : Reader α} {p : Bytes} {a : α}

theorem reads_pure (a : α) : Reads (pure a) [] a := fun _ => rfl

theorem reads_u8 (n : UInt8) : Reads u8 (putFixed8 n.toNat) n.toNat :=
  Decoder.u8_put n.toNat_lt

theorem reads_u32 {n : Nat} (h : n < 2 ^ 32) : Reads u32 (putFixed32 n) n := Decoder.u32_put h

theorem reads_u64 {n : Nat} (h : n < 2 ^ 64) : Reads u64 (putFixed64 n) n := Decoder.u64_put h

theorem reads_str {s : Bytes} (h : s.length < 2 ^ 32) : Reads str (putLengthPrefixed s) s :=
  Decoder.lengthPrefixed_put h

theorem reads_flag (x : Bool) : Reads u8 (putFixed8 (if x then 1 else 0)) (if x then 1 else 0) := by
  cases x
  · exact reads_u8 0
  · exact reads_u8 1

theorem reads_list {put : α → Bytes} {as : List α} (h : ∀ a ∈ as, Reads r (put a) a) :
    Reads (list r as.length) (as.flatMap put) as := by
  induction as with
  | nil => exact reads_pure []
  | cons a as ih =>
    have htail := ih fun b hb => h b (mem_cons_of_mem a hb)
    have hboth : Reads (r >>= fun a => list r as.length >>= fun rest => pure (a :: rest))
        (put a ++ as.flatMap put) (a :: as) := (h a mem_cons_self).bind (htail.last (a :: ·))
    -- the decoder has not failed, so that the loop goes on
    exact fun rest => hboth rest

theorem Reads.accept (h : Reads r p a) : r.accept ⟨p, false⟩ = some a := by
  have hread : r.run ⟨p ++ [], false⟩ = (a, ⟨[], false⟩) := h []
  rw [append_nil] at hread
  unfold Reader.accept
  rw [hread]
  rfl

/-! ## Readers do not look behind what they read. -/

@[simp]
theorem stable_pure (a : α) : Stable (pure a : Reader α) where
  sticky := fun _ => rfl
  longer := by
    intro d a' rest h e
    cases h
    rfl

theorem Stable.bind (hr : Stable r) (hf : ∀ a, Stable (f a)) : Stable (r >>= f) where
  sticky := by
    intro d
    rw [StateT.run_bind]
    show ((f (r.run ⟨d, true⟩).1).run (r.run ⟨d, true⟩).2).2.failed = true
    have hfailed := hr.sticky d
    generalize r.run ⟨d, true⟩ = read at hfailed
    obtain ⟨a, rest, failed⟩ := read
    cases hfailed
    exact (hf a).sticky rest
  longer := by
    intro d b rest h e
    rw [StateT.run_bind] at h ⊢
    cases hread : r.run ⟨d, false⟩ with
    | mk a dec =>
      obtain ⟨mid, failed⟩ := dec
      rw [hread] at h
      cases failed with
      | true =>
        -- a failure here would still be there at the end
        have hfailed := (hf a).sticky mid
        rw [show (f a).run ⟨mid, true⟩ = (b, ⟨rest, false⟩) from h] at hfailed
        cases hfailed
      | false =>
        rw [hr.longer hread e]
        exact (hf a).longer h e

theorem bytes_longer {d rest s : Bytes} {n : Nat}
    (h : (⟨d, false⟩ : Decoder).bytes n = (s, ⟨rest, false⟩)) (e : Bytes) :
    (⟨d ++ e, false⟩ : Decoder).bytes n = (s, ⟨rest ++ e, false⟩) := by
  unfold Decoder.bytes at h ⊢
  split at h
  · cases h
  · rename_i henough
    have hlen : n ≤ d.length := by simpa using henough
    cases h
    rw [if_neg (by simp; omega)]
    simp only [take_append_of_le_length hlen, drop_append_of_le_length hlen]

theorem stable_fixed (width : Nat) :
    Stable (fun d : Decoder => d.fixed width : Reader Nat) where
  sticky := fun _ => rfl
  longer := by
    intro d a rest h e
    have hparts := Prod.mk.inj h
    have hbytes : (⟨d, false⟩ : Decoder).bytes width = (_, ⟨rest, false⟩) := Prod.ext rfl hparts.2
    show (decodeFixed _, _) = _
    rw [bytes_longer hbytes e, ← hparts.1]

@[simp]
theorem stable_u8 : Stable u8 := stable_fixed 1

@[simp]
theorem stable_u32 : Stable u32 := stable_fixed 4

@[simp]
theorem stable_u64 : Stable u64 := stable_fixed 8

theorem stable_bytes (n : Nat) : Stable (fun d : Decoder => d.bytes n : Reader Bytes) where
  sticky := fun _ => rfl
  longer := fun h e => bytes_longer h e

@[simp]
theorem stable_str : Stable str := stable_u32.bind stable_bytes

@[simp]
theorem stable_list (hr : Stable r) (count : Nat) : Stable (list r count) := by
  induction count with
  | zero => exact stable_pure []
  | succ count ih =>
    have hnext : Stable (r >>= fun a => list r count >>= fun rest => pure (a :: rest)) :=
      hr.bind fun a => ih.bind fun rest => stable_pure (a :: rest)
    exact ⟨fun _ => rfl, fun h e => hnext.longer h e⟩

theorem Stable.accept_longer (h : Stable r) {dec : Decoder} (haccept : r.accept dec = some a)
    {e : Bytes} (he : e ≠ []) : dec.failed = false ∧ r.accept ⟨dec.rest ++ e, false⟩ = none := by
  obtain ⟨d, failed⟩ := dec
  unfold Reader.accept at haccept
  dsimp only at haccept
  split at haccept
  · rename_i hend
    cases failed with
    | true =>
      rw [Decoder.ok, h.sticky d] at hend
      cases hend.1
    | false =>
      refine ⟨rfl, ?_⟩
      cases hread : r.run ⟨d, false⟩ with
      | mk b dec' =>
        obtain ⟨rest, failed⟩ := dec'
        rw [hread] at hend
        cases failed with
        | true => cases hend.1
        | false =>
          unfold Reader.accept
          rw [h.longer hread e]
          refine if_neg fun hnow => he ?_
          exact (List.append_eq_nil_iff.mp (List.length_eq_zero_iff.mp hnow.2)).2
  · cases haccept

end

end Reader

open Reader

/-! ## Frames. -/

/-- A tag byte of a known kind, and the fields that follow it. -/
def decodeFrame (kind : Nat → Option κ) (body : κ → Reader α) (data : Bytes) : Option α :=
  let tag := (⟨data, false⟩ : Decoder).u8
  match kind tag.1 with
  | some k => (body k).accept tag.2
  | none => none

/-- The value is read back, and neither less nor more than its encoding is accepted. -/
structure Exact (encode : α → Bytes) (decode : Bytes → Option α) (a : α) : Prop where
  decode_encode : decode (encode a) = some a
  truncated : ∀ p, p <+: encode a → p ≠ encode a → decode p = none
  extended : ∀ e, e ≠ [] → decode (encode a ++ e) = none

theorem decodeFrame_longer {kind : Nat → Option κ} {body : κ → Reader α}
    (hbody : ∀ k, Stable (body k)) {data : Bytes} {a : α}
    (h : decodeFrame kind body data = some a) {e : Bytes} (he : e ≠ []) :
    decodeFrame kind body (data ++ e) = none := by
  unfold decodeFrame at h ⊢
  dsimp only at h ⊢
  cases hread : (⟨data, false⟩ : Decoder).u8 with
  | mk t dec =>
    rw [hread] at h
    cases hkind : kind t with
    | none =>
      rw [hkind] at h
      cases h
    | some k =>
      rw [hkind] at h
      obtain ⟨hok, hnone⟩ := (hbody k).accept_longer h he
      obtain ⟨rest, failed⟩ := dec
      cases hok
      have hlonger : (⟨data ++ e, false⟩ : Decoder).u8 = (t, ⟨rest ++ e, false⟩) :=
        stable_u8.longer hread e
      rw [hlonger, hkind]
      exact hnone

theorem Exact.of_frame {kind : Nat → Option κ} {body : κ → Reader α}
    (hbody : ∀ k, Stable (body k)) {encode : α → Bytes} {a : α}
    (h : decodeFrame kind body (encode a) = some a) : Exact encode (decodeFrame kind body) a where
  decode_encode := h
  truncated := by
    rintro p ⟨e, he⟩ hne
    cases hp : decodeFrame kind body p with
    | none => rfl
    | some b =>
      -- the encoding itself is an extension of the prefix
      have hnone := decodeFrame_longer hbody hp (e := e) fun hnil => hne (by rw [← he, hnil]; simp)
      rw [he, h] at hnone
      cases hnone
  extended := fun _ he => decodeFrame_longer hbody h he

theorem decodeFrame_put {kind : Nat → Option κ} {body : κ → Reader α} {t : Nat} {k : κ} {p : Bytes}
    {a : α} (ht : t < 256) (hkind : kind t = some k) (h : Reads (body k) p a) :
    decodeFrame kind body (putFixed8 t ++ p) = some a := by
  unfold decodeFrame
  rw [Decoder.u8_put ht]
  dsimp only
  rw [hkind]
  exact h.accept

/-! ## Raft messages. -/

open Raft (Message MsgKind LogEntry)

def kindCode : MsgKind → Nat
  | .requestVote => 1
  | .requestVoteResp => 2
  | .appendEntries => 3
  | .appendEntriesResp => 4
  | .installSnapshot => 5
  | .installSnapshotResp => 6

def kindOf : Nat → Option MsgKind
  | 1 => some .requestVote
  | 2 => some .requestVoteResp
  | 3 => some .appendEntries
  | 4 => some .appendEntriesResp
  | 5 => some .installSnapshot
  | 6 => some .installSnapshotResp
  | _ => none

def putEntry (e : LogEntry) : Bytes :=
  putFixed64 e.term ++ (putFixed64 e.index ++ putLengthPrefixed e.command)

def encodeMessage (m : Message) : Bytes :=
  putFixed8 (kindCode m.kind) ++ (putFixed32 m.from_ ++ (putFixed32 m.to_ ++ (putFixed64 m.term ++
    (putFixed64 m.lastLogIndex ++ (putFixed64 m.lastLogTerm ++
    (putFixed8 (if m.granted then 1 else 0) ++ (putFixed64 m.prevIndex ++ (putFixed64 m.prevTerm ++
    (putFixed64 m.commit ++ (putFixed64 m.hbSeq ++ (putFixed8 (if m.success then 1 else 0) ++
    (putFixed64 m.matchIndex ++ (putFixed64 m.hintIndex ++ (putFixed64 m.snapIndex ++
    (putFixed64 m.snapTerm ++ (putLengthPrefixed m.snapData ++ (putFixed32 m.entries.length ++
    m.entries.flatMap putEntry)))))))))))))))))

def readEntry : Reader LogEntry := do
  let term ← u64
  let index ← u64
  let command ← str
  return ⟨term, index, command⟩

def readMessage (kind : MsgKind) : Reader Message := do
  let from_ ← u32
  let to_ ← u32
  let term ← u64
  let lastLogIndex ← u64
  let lastLogTerm ← u64
  let granted ← u8
  let prevIndex ← u64
  let prevTerm ← u64
  let commit ← u64
  let hbSeq ← u64
  let success ← u8
  let matchIndex ← u64
  let hintIndex ← u64
  let snapIndex ← u64
  let snapTerm ← u64
  let snapData ← str
  let count ← u32
  let entries ← list readEntry count
  return ⟨kind, from_, to_, term, lastLogIndex, lastLogTerm, granted ≠ 0, prevIndex, prevTerm,
    commit, hbSeq, entries, success ≠ 0, matchIndex, hintIndex, snapIndex, snapTerm, snapData⟩

def decodeMessage : Bytes → Option Message := decodeFrame kindOf readMessage

/-- The fields have the widths of their types, and what is counted has fewer than 2^32 elements. -/
structure MessageFits (m : Message) : Prop where
  ids : m.from_ < 2 ^ 32 ∧ m.to_ < 2 ^ 32
  terms : m.term < 2 ^ 64 ∧ m.lastLogTerm < 2 ^ 64 ∧ m.prevTerm < 2 ^ 64 ∧ m.snapTerm < 2 ^ 64
  indexes : m.lastLogIndex < 2 ^ 64 ∧ m.prevIndex < 2 ^ 64 ∧ m.commit < 2 ^ 64 ∧
    m.matchIndex < 2 ^ 64 ∧ m.hintIndex < 2 ^ 64 ∧ m.snapIndex < 2 ^ 64
  hbSeq : m.hbSeq < 2 ^ 64
  snapData : m.snapData.length < 2 ^ 32
  count : m.entries.length < 2 ^ 32
  entries : ∀ e ∈ m.entries, e.term < 2 ^ 64 ∧ e.index < 2 ^ 64 ∧ e.command.length < 2 ^ 32

theorem flag_ne (x : Bool) : decide ((if x then 1 else 0 : Nat) ≠ 0) = x := by cases x <;> rfl

theorem decodeMessage_encode {m : Message} (h : MessageFits m) :
    decodeMessage (encodeMessage m) = some m := by
  have hentry : ∀ e ∈ m.entries, Reads readEntry (putEntry e) e := fun e he =>
    (reads_u64 (h.entries e he).1).bind <| (reads_u64 (h.entries e he).2.1).bind <|
      (reads_str (h.entries e he).2.2).last _
  have hbody : Reads (readMessage m.kind) ((encodeMessage m).drop 1)
      { m with granted := (if m.granted then 1 else 0 : Nat) ≠ 0,
               success := (if m.success then 1 else 0 : Nat) ≠ 0 } := by
    refine (reads_u32 h.ids.1).bind ?_
    refine (reads_u32 h.ids.2).bind ?_
    refine (reads_u64 h.terms.1).bind ?_
    refine (reads_u64 h.indexes.1).bind ?_
    refine (reads_u64 h.terms.2.1).bind ?_
    refine (reads_flag m.granted).bind ?_
    refine (reads_u64 h.indexes.2.1).bind ?_
    refine (reads_u64 h.terms.2.2.1).bind ?_
    refine (reads_u64 h.indexes.2.2.1).bind ?_
    refine (reads_u64 h.hbSeq).bind ?_
    refine (reads_flag m.success).bind ?_
    refine (reads_u64 h.indexes.2.2.2.1).bind ?_
    refine (reads_u64 h.indexes.2.2.2.2.1).bind ?_
    refine (reads_u64 h.indexes.2.2.2.2.2).bind ?_
    refine (reads_u64 h.terms.2.2.2).bind ?_
    refine (reads_str h.snapData).bind ?_
    refine (reads_u32 h.count).bind ?_
    exact (reads_list hentry).last _
  simp only [flag_ne] at hbody
  exact decodeFrame_put (by cases m.kind <;> decide) (by cases m.kind <;> rfl) hbody

@[simp]
theorem stable_readEntry : Stable readEntry :=
  stable_u64.bind fun _ => stable_u64.bind fun _ => stable_str.bind fun _ => stable_pure _

theorem stable_readMessage (kind : MsgKind) : Stable (readMessage kind) := by
  unfold readMessage
  repeat refine .bind (by simp) fun _ => ?_
  exact stable_pure _

/-! ## Requests. -/

/-- The types of a request; a response has tag 16. -/
inductive MsgType where
  | get
  | put
  | delete
  | scan
  | status
  | split
  | ranges
  | txnTs
  | txnGet
  | txnPrewrite
  | txnCommit
  | txnRollback
  | txnScan
  | txnResolve
  deriving DecidableEq

/-- The enumerators: 1 to 14, in the order above. -/
def MsgType.code (t : MsgType) : Nat := t.ctorIdx + 1

/-- The cases of `DecodeRequest`. -/
def MsgType.ofCode (n : Nat) : Option MsgType :=
  [MsgType.get, .put, .delete, .scan, .status, .split, .ranges, .txnTs, .txnGet, .txnPrewrite,
    .txnCommit, .txnRollback, .txnScan, .txnResolve].find? fun t => t.code = n

structure Request where
  type : MsgType := .get
  key : Bytes := []
  value : Bytes := []
  endKey : Bytes := []
  limit : UInt32 := 0
  flags : UInt8 := 0
  ts : UInt64 := 0
  ts2 : UInt64 := 0
  primary : Bytes := []
  wop : UInt8 := 0

def encodeRequest (req : Request) : Bytes :=
  putFixed8 req.type.code ++ (putLengthPrefixed req.key ++ (putLengthPrefixed req.value ++
    (putLengthPrefixed req.endKey ++ (putFixed32 req.limit.toNat ++ (putFixed8 req.flags.toNat ++
    (putFixed64 req.ts.toNat ++ (putFixed64 req.ts2.toNat ++ (putLengthPrefixed req.primary ++
    putFixed8 req.wop.toNat))))))))

def readRequest (type : MsgType) : Reader Request := do
  let key ← str
  let value ← str
  let endKey ← str
  let limit ← u32
  let flags ← u8
  let ts ← u64
  let ts2 ← u64
  let primary ← str
  let wop ← u8
  return ⟨type, key, value, endKey, .ofNat limit, .ofNat flags, .ofNat ts, .ofNat ts2, primary,
    .ofNat wop⟩

def decodeRequest : Bytes → Option Request := decodeFrame MsgType.ofCode readRequest

structure Request.Fits (req : Request) : Prop where
  key : req.key.length < 2 ^ 32
  value : req.value.length < 2 ^ 32
  endKey : req.endKey.length < 2 ^ 32
  primary : req.primary.length < 2 ^ 32

theorem MsgType.code_lt (t : MsgType) : t.code < 256 := by cases t <;> decide

theorem MsgType.ofCode_code (t : MsgType) : ofCode t.code = some t := by cases t <;> rfl

theorem decodeRequest_encode {req : Request} (h : req.Fits) :
    decodeRequest (encodeRequest req) = some req := by
  have hbody : Reads (readRequest req.type) ((encodeRequest req).drop 1)
      ⟨req.type, req.key, req.value, req.endKey, .ofNat req.limit.toNat, .ofNat req.flags.toNat,
        .ofNat req.ts.toNat, .ofNat req.ts2.toNat, req.primary, .ofNat req.wop.toNat⟩ := by
    refine (reads_str h.key).bind ?_
    refine (reads_str h.value).bind ?_
    refine (reads_str h.endKey).bind ?_
    refine (reads_u32 req.limit.toNat_lt).bind ?_
    refine (reads_u8 req.flags).bind ?_
    refine (reads_u64 req.ts.toNat_lt).bind ?_
    refine (reads_u64 req.ts2.toNat_lt).bind ?_
    refine (reads_str h.primary).bind ?_
    exact (reads_u8 req.wop).last _
  simp only [UInt8.ofNat_toNat, UInt32.ofNat_toNat, UInt64.ofNat_toNat] at hbody
  exact decodeFrame_put req.type.code_lt req.type.ofCode_code hbody

theorem stable_readRequest (type : MsgType) : Stable (readRequest type) := by
  unfold readRequest
  repeat refine .bind (by simp) fun _ => ?_
  exact stable_pure _

/-! ## Responses. -/

structure Response where
  code : UInt8 := 0
  leaderAddr : Bytes := []
  message : Bytes := []
  found : Bool := false
  value : Bytes := []
  kvs : List (Bytes × Bytes) := []
  ts : UInt64 := 0
  lockTs : UInt64 := 0
  lockPrimary : Bytes := []
  lockKey : Bytes := []

def putPair (kv : Bytes × Bytes) : Bytes := putLengthPrefixed kv.1 ++ putLengthPrefixed kv.2

def encodeResponse (resp : Response) : Bytes :=
  putFixed8 16 ++ (putFixed8 resp.code.toNat ++ (putLengthPrefixed resp.leaderAddr ++
    (putLengthPrefixed resp.message ++ (putFixed8 (if resp.found then 1 else 0) ++
    (putLengthPrefixed resp.value ++ (putFixed32 resp.kvs.length ++ (resp.kvs.flatMap putPair ++
    (putFixed64 resp.ts.toNat ++ (putFixed64 resp.lockTs.toNat ++
    (putLengthPrefixed resp.lockPrimary ++ putLengthPrefixed resp.lockKey))))))))))

def readPair : Reader (Bytes × Bytes) := do
  let k ← str
  let v ← str
  return (k, v)

def readResponse : Reader Response := do
  let code ← u8
  let leaderAddr ← str
  let message ← str
  let found ← u8
  let value ← str
  let count ← u32
  let kvs ← list readPair count
  let ts ← u64
  let lockTs ← u64
  let lockPrimary ← str
  let lockKey ← str
  return ⟨.ofNat code, leaderAddr, message, found ≠ 0, value, kvs, .ofNat ts, .ofNat lockTs,
    lockPrimary, lockKey⟩

def decodeResponse : Bytes → Option Response :=
  decodeFrame (fun tag => if tag = 16 then some () else none) fun _ => readResponse

structure Response.Fits (resp : Response) : Prop where
  leaderAddr : resp.leaderAddr.length < 2 ^ 32
  message : resp.message.length < 2 ^ 32
  value : resp.value.length < 2 ^ 32
  count : resp.kvs.length < 2 ^ 32
  kvs : ∀ kv ∈ resp.kvs, kv.1.length < 2 ^ 32 ∧ kv.2.length < 2 ^ 32
  lockPrimary : resp.lockPrimary.length < 2 ^ 32
  lockKey : resp.lockKey.length < 2 ^ 32

theorem decodeResponse_encode {resp : Response} (h : resp.Fits) :
    decodeResponse (encodeResponse resp) = some resp := by
  have hpair : ∀ kv ∈ resp.kvs, Reads readPair (putPair kv) kv := fun kv hkv =>
    (reads_str (h.kvs kv hkv).1).bind ((reads_str (h.kvs kv hkv).2).last _)
  have hbody : Reads readResponse ((encodeResponse resp).drop 1)
      ⟨.ofNat resp.code.toNat, resp.leaderAddr, resp.message,
        (if resp.found then 1 else 0 : Nat) ≠ 0, resp.value, resp.kvs, .ofNat resp.ts.toNat,
        .ofNat resp.lockTs.toNat, resp.lockPrimary, resp.lockKey⟩ := by
    refine (reads_u8 resp.code).bind ?_
    refine (reads_str h.leaderAddr).bind ?_
    refine (reads_str h.message).bind ?_
    refine (reads_flag resp.found).bind ?_
    refine (reads_str h.value).bind ?_
    refine (reads_u32 h.count).bind ?_
    refine (reads_list hpair).bind ?_
    refine (reads_u64 resp.ts.toNat_lt).bind ?_
    refine (reads_u64 resp.lockTs.toNat_lt).bind ?_
    refine (reads_str h.lockPrimary).bind ?_
    exact (reads_str h.lockKey).last _
  simp only [flag_ne, UInt8.ofNat_toNat, UInt64.ofNat_toNat] at hbody
  exact decodeFrame_put (by decide) rfl hbody

@[simp]
theorem stable_readPair : Stable readPair :=
  stable_str.bind fun _ => stable_str.bind fun _ => stable_pure _

theorem stable_readResponse : Stable readResponse := by
  unfold readResponse
  repeat refine .bind (by simp) fun _ => ?_
  exact stable_pure _

/-! ## The Python client. -/

namespace Py

/-- `struct.pack` of one unsigned number, which raises if it does not fit. -/
def pack (width n : Nat) : Option Bytes :=
  if n < 256 ^ width then some (putFixed width n) else none

/-- `_lp` -/
def lp (data : Bytes) : Option Bytes := (pack 4 data.length).map (· ++ data)

def encodeRequest (msgType : Nat) (key value endKey : Bytes) (limit flags ts ts2 : Nat)
    (primary : Bytes) (wop : Nat) : Option Bytes := do
  return (← pack 1 msgType) ++ ((← lp key) ++ ((← lp value) ++ ((← lp endKey) ++
    ((← pack 4 limit) ++ ((← pack 1 flags) ++ ((← pack 8 ts) ++ ((← pack 8 ts2) ++
    ((← lp primary) ++ (← pack 1 wop)))))))))

/-- `_Reader`: `take` raises when the payload is short. -/
def take (n : Nat) : StateT Bytes Option Bytes := fun data =>
  if data.length < n then none else some (data.take n, data.drop n)

def fixed (width : Nat) : StateT Bytes Option Nat := do return decodeFixed (← take width)

def string : StateT Bytes Option Bytes := do take (← fixed 4)

/-- `bytes.decode()`, which raises on bytes that are not UTF-8. -/
def decode (data : Bytes) : StateT Bytes Option String :=
  StateT.lift (String.fromUTF8? ⟨data.toArray⟩)

/-- `[(r.string(), r.string()) for _ in range(count)]` -/
def pairs : Nat → StateT Bytes Option (List (Bytes × Bytes))
  | 0 => return []
  | count + 1 => do
      let k ← string
      let v ← string
      let rest ← pairs count
      return (k, v) :: rest

structure Response where
  code : Nat
  leaderAddr : String
  message : String
  found : Bool
  value : Bytes
  kvs : List (Bytes × Bytes)
  ts : Nat
  lockTs : Nat
  lockPrimary : Bytes
  lockKey : Bytes

def readResponse : StateT Bytes Option Response := do
  let tag ← fixed 1
  if tag ≠ 16 then StateT.lift none
  let code ← fixed 1
  let leaderAddr ← decode (← string)
  let message ← decode (← string)
  let found ← fixed 1
  let value ← string
  let count ← fixed 4
  let kvs ← pairs count
  let ts ← fixed 8
  let lockTs ← fixed 8
  let lockPrimary ← string
  let lockKey ← string
  return ⟨code, leaderAddr, message, found ≠ 0, value, kvs, ts, lockTs, lockPrimary, lockKey⟩

def decodeResponse (payload : Bytes) : Option Response := (readResponse.run payload).map Prod.fst

theorem pack_eq {width n : Nat} {bytes : Bytes} (h : pack width n = some bytes) :
    n < 256 ^ width ∧ bytes = putFixed width n := by
  unfold pack at h
  split at h
  · rename_i hlt
    exact ⟨hlt, (Option.some.inj h).symm⟩
  · cases h

theorem lp_eq {data bytes : Bytes} (h : lp data = some bytes) :
    data.length < 2 ^ 32 ∧ bytes = putLengthPrefixed data := by
  obtain ⟨count, hcount, rfl⟩ := map_eq_some_iff.mp h
  obtain ⟨hlt, rfl⟩ := pack_eq hcount
  exact ⟨hlt, rfl⟩

theorem isSome_pack {width n : Nat} : (pack width n).isSome ↔ n < 256 ^ width := by
  unfold pack
  split <;> simp_all

theorem isSome_lp {data : Bytes} : (lp data).isSome ↔ data.length < 2 ^ 32 := by
  unfold lp
  rw [Option.isSome_map]
  exact isSome_pack

/-- The client writes a request exactly if every field is in its range. -/
theorem isSome_encodeRequest {t : MsgType} {key value endKey primary : Bytes}
    {limit flags ts ts2 wop : Nat} :
    (encodeRequest t.code key value endKey limit flags ts ts2 primary wop).isSome ↔
      (key.length < 2 ^ 32 ∧ value.length < 2 ^ 32 ∧ endKey.length < 2 ^ 32 ∧
        primary.length < 2 ^ 32) ∧
      limit < 2 ^ 32 ∧ flags < 2 ^ 8 ∧ ts < 2 ^ 64 ∧ ts2 < 2 ^ 64 ∧ wop < 2 ^ 8 := by
  have hcode : (pack 1 t.code).isSome := isSome_pack.mpr (by cases t <;> decide)
  have hbind : ∀ {γ : Type} (x : Option Bytes) (g : Bytes → Option γ) {P : Prop},
      (∀ y, (g y).isSome ↔ P) → ((x.bind g).isSome ↔ x.isSome ∧ P) := by
    intro γ x g P hg
    cases x with
    | none => simp
    | some y => simpa using hg y
  unfold encodeRequest
  refine (hbind _ _ fun _ => hbind _ _ fun _ => hbind _ _ fun _ => hbind _ _ fun _ =>
    hbind _ _ fun _ => hbind _ _ fun _ => hbind _ _ fun _ => hbind _ _ fun _ => hbind _ _ fun _ =>
    hbind _ _ fun _ => iff_true_intro rfl).trans ?_
  simp only [hcode, isSome_pack, isSome_lp, true_and, and_true]
  tauto

theorem decodeRequest_of_encode {t : MsgType} {key value endKey primary bytes : Bytes}
    {limit flags ts ts2 wop : Nat} (h : encodeRequest t.code key value endKey limit flags ts ts2
      primary wop = some bytes) :
    ∃ req, decodeRequest bytes = some req ∧ req.type = t ∧ req.key = key ∧ req.value = value ∧
      req.endKey = endKey ∧ req.limit.toNat = limit ∧ req.flags.toNat = flags ∧ req.ts.toNat = ts ∧
      req.ts2.toNat = ts2 ∧ req.primary = primary ∧ req.wop.toNat = wop := by
  unfold encodeRequest at h
  simp only [Option.bind_eq_bind, bind_eq_some_iff, Option.pure_def, Option.some.injEq] at h
  obtain ⟨_, h1, _, h2, _, h3, _, h4, _, h5, _, h6, _, h7, _, h8, _, h9, _, h10, rfl⟩ := h
  obtain ⟨_, rfl⟩ := pack_eq h1
  obtain ⟨hkey, rfl⟩ := lp_eq h2
  obtain ⟨hvalue, rfl⟩ := lp_eq h3
  obtain ⟨hend, rfl⟩ := lp_eq h4
  obtain ⟨hlimit, rfl⟩ := pack_eq h5
  obtain ⟨hflags, rfl⟩ := pack_eq h6
  obtain ⟨hts, rfl⟩ := pack_eq h7
  obtain ⟨hts2, rfl⟩ := pack_eq h8
  obtain ⟨hprimary, rfl⟩ := lp_eq h9
  obtain ⟨hwop, rfl⟩ := pack_eq h10
  have hread := @decodeRequest_encode ⟨t, key, value, endKey, .ofNat limit, .ofNat flags,
    .ofNat ts, .ofNat ts2, primary, .ofNat wop⟩ ⟨hkey, hvalue, hend, hprimary⟩
  have hnum : (UInt32.ofNat limit).toNat = limit ∧ (UInt8.ofNat flags).toNat = flags ∧
      (UInt64.ofNat ts).toNat = ts ∧ (UInt64.ofNat ts2).toNat = ts2 ∧
      (UInt8.ofNat wop).toNat = wop :=
    ⟨UInt32.toNat_ofNat_of_lt' hlimit, UInt8.toNat_ofNat_of_lt' hflags,
      UInt64.toNat_ofNat_of_lt' hts, UInt64.toNat_ofNat_of_lt' hts2, UInt8.toNat_ofNat_of_lt' hwop⟩
  unfold Net.encodeRequest at hread
  dsimp only at hread
  rw [hnum.1, hnum.2.1, hnum.2.2.1, hnum.2.2.2.1, hnum.2.2.2.2] at hread
  exact ⟨_, hread, rfl, rfl, rfl, rfl, hnum.1, hnum.2.1, hnum.2.2.1, hnum.2.2.2.1, rfl,
    hnum.2.2.2.2⟩

section

/-- As for a decoder, but for a reader that raises. -/
abbrev Reads (r : StateT Bytes Option α) (bytes : Bytes) (a : α) : Prop := Gets id r bytes a

theorem reads_take (s : Bytes) : Reads (take s.length) s s := by
  intro rest
  show (if (s ++ rest).length < s.length then none
    else some ((s ++ rest).take s.length, (s ++ rest).drop s.length)) = some (s, rest)
  rw [if_neg (by rw [length_append]; omega), take_left, drop_left]

theorem reads_fixed {width n : Nat} (h : n < 256 ^ width) :
    Reads (fixed width) (putFixed width n) n := by
  have htake := reads_take (putFixed width n)
  rw [length_putFixed] at htake
  have hread := htake.last decodeFixed
  rw [decodeFixed_putFixed, Nat.mod_eq_of_lt h] at hread
  exact hread

theorem reads_string {s : Bytes} (h : s.length < 2 ^ 32) :
    Reads string (putLengthPrefixed s) s :=
  (reads_fixed h).bind (reads_take s)

/-- A string of the client, in its encoding on the wire. -/
def utf8 (s : String) : Bytes := s.toUTF8.data.toList

theorem reads_decode {f : String → StateT Bytes Option β} {s : String} {q : Bytes} {b : β}
    (h : (utf8 s).length < 2 ^ 32) (hf : Reads (f s) q b) :
    Reads (string >>= fun data => decode data >>= f) (putLengthPrefixed (utf8 s) ++ q) b := by
  have hdecode : String.fromUTF8? ⟨(utf8 s).toArray⟩ = some s := by
    unfold String.fromUTF8? utf8
    rw [Array.toArray_toList]
    exact dif_pos s.isValidUTF8
  refine (reads_string h).bind fun rest => ?_
  rw [StateT.run_bind, decode, hdecode]
  exact hf rest

theorem reads_pairs {kvs : List (Bytes × Bytes)}
    (h : ∀ kv ∈ kvs, kv.1.length < 2 ^ 32 ∧ kv.2.length < 2 ^ 32) :
    Reads (pairs kvs.length) (kvs.flatMap putPair) kvs := by
  induction kvs with
  | nil => exact fun _ => rfl
  | cons kv kvs ih =>
    have hkv := h kv mem_cons_self
    rw [flatMap_cons, putPair, append_assoc]
    refine (reads_string hkv.1).bind ?_
    refine (reads_string hkv.2).bind ?_
    exact (ih fun kv' hkv' => h kv' (mem_cons_of_mem kv hkv')).last _

theorem decodeResponse_encode {resp : Net.Response} (h : resp.Fits) {addr message : String}
    (haddr : resp.leaderAddr = utf8 addr) (hmessage : resp.message = utf8 message) :
    decodeResponse (encodeResponse resp) = some ⟨resp.code.toNat, addr, message, resp.found,
      resp.value, resp.kvs, resp.ts.toNat, resp.lockTs.toNat, resp.lockPrimary, resp.lockKey⟩ := by
  have hflag : (if resp.found then 1 else 0 : Nat) < 256 ^ 1 := by split <;> decide
  have hbody : Reads readResponse (encodeResponse resp) ⟨resp.code.toNat, addr, message,
      (if resp.found then 1 else 0 : Nat) ≠ 0, resp.value, resp.kvs, resp.ts.toNat,
      resp.lockTs.toNat, resp.lockPrimary, resp.lockKey⟩ := by
    unfold encodeResponse
    rw [haddr, hmessage]
    refine (reads_fixed (by decide)).bind ?_
    refine (reads_fixed resp.code.toNat_lt).bind ?_
    refine reads_decode (haddr ▸ h.leaderAddr) ?_
    refine reads_decode (hmessage ▸ h.message) ?_
    refine (reads_fixed hflag).bind ?_
    refine (reads_string h.value).bind ?_
    refine (reads_fixed h.count).bind ?_
    refine (reads_pairs h.kvs).bind ?_
    refine (reads_fixed resp.ts.toNat_lt).bind ?_
    refine (reads_fixed resp.lockTs.toNat_lt).bind ?_
    refine (reads_string h.lockPrimary).bind ?_
    exact (reads_string h.lockKey).last _
  have hread : readResponse.run (encodeResponse resp ++ []) = _ := hbody []
  rw [append_nil] at hread
  unfold decodeResponse
  rw [hread]
  simp only [flag_ne]
  rfl

end

end Py

/-! ## All formats. -/

/-- **The wire codecs invert each other and reject truncation**, in both languages. -/
theorem wire_codecs_exact :
    (∀ m, MessageFits m → Exact encodeMessage decodeMessage m) ∧
    (∀ req : Request, req.Fits → Exact encodeRequest decodeRequest req) ∧
    (∀ resp : Response, resp.Fits → Exact encodeResponse decodeResponse resp) ∧
    (∀ (t : MsgType) (key value endKey primary : Bytes) (limit flags ts ts2 wop : Nat),
      ((Py.encodeRequest t.code key value endKey limit flags ts ts2 primary wop).isSome ↔
        (key.length < 2 ^ 32 ∧ value.length < 2 ^ 32 ∧ endKey.length < 2 ^ 32 ∧
          primary.length < 2 ^ 32) ∧
        limit < 2 ^ 32 ∧ flags < 2 ^ 8 ∧ ts < 2 ^ 64 ∧ ts2 < 2 ^ 64 ∧ wop < 2 ^ 8) ∧
      ∀ bytes,
      Py.encodeRequest t.code key value endKey limit flags ts ts2 primary wop = some bytes →
      ∃ req, decodeRequest bytes = some req ∧ req.type = t ∧ req.key = key ∧ req.value = value ∧
        req.endKey = endKey ∧ req.limit.toNat = limit ∧ req.flags.toNat = flags ∧
        req.ts.toNat = ts ∧ req.ts2.toNat = ts2 ∧ req.primary = primary ∧ req.wop.toNat = wop) ∧
    ∀ (resp : Response) (addr message : String), resp.Fits → resp.leaderAddr = Py.utf8 addr →
      resp.message = Py.utf8 message →
      Py.decodeResponse (encodeResponse resp) = some ⟨resp.code.toNat, addr, message, resp.found,
        resp.value, resp.kvs, resp.ts.toNat, resp.lockTs.toNat, resp.lockPrimary, resp.lockKey⟩ := by
  refine ⟨fun m h => ?_, fun req h => ?_, fun resp h => ?_, ?_, ?_⟩
  · exact Exact.of_frame stable_readMessage (decodeMessage_encode h)
  · exact Exact.of_frame stable_readRequest (decodeRequest_encode h)
  · exact Exact.of_frame (fun _ => stable_readResponse) (decodeResponse_encode h)
  · intro t key value endKey primary limit flags ts ts2 wop
    exact ⟨Py.isSome_encodeRequest, fun bytes h => Py.decodeRequest_of_encode h⟩
  · intro resp addr message h haddr hmessage
    exact Py.decodeResponse_encode h haddr hmessage

/-- A heartbeat, a `GET` of the client, and the answer that points it to the leader. -/
theorem wire_codecs_exact_samples :
    decodeMessage (encodeMessage { kind := .appendEntries, from_ := 1, to_ := 2, term := 3 }) =
      some { kind := .appendEntries, from_ := 1, to_ := 2, term := 3 } ∧
    decodeRequest (encodeRequest ⟨.get, [107], [], [], 0, 0, 0, 0, [], 0⟩ ++ [0]) = none ∧
    decodeResponse (encodeResponse { code := 5, leaderAddr := Py.utf8 "n" }).dropLast = none ∧
    (∃ bytes, Py.encodeRequest MsgType.get.code [107] [] [] 0 0 0 0 [] 0 = some bytes ∧
      ∃ req, decodeRequest bytes = some req ∧ req.type = .get ∧ req.key = [107]) ∧
    Py.decodeResponse (encodeResponse { code := 5, leaderAddr := Py.utf8 "n" }) =
      some ⟨5, "n", "", false, [], [], 0, 0, [], []⟩ := by
  obtain ⟨hmessage, hrequest, hresponse, hpyRequest, hpyResponse⟩ := wire_codecs_exact
  have hfits : Response.Fits { code := 5, leaderAddr := Py.utf8 "n" } :=
    ⟨by decide, by decide, by decide, by decide, by decide, by decide, by decide⟩
  refine ⟨?_, ?_, ?_, ?_, ?_⟩
  · refine (hmessage _ ⟨?_, ?_, ?_, ?_, ?_, ?_, ?_⟩).decode_encode <;> decide
  · refine (hrequest _ ⟨?_, ?_, ?_, ?_⟩).extended [0] ?_ <;> decide
  · exact (hresponse _ hfits).truncated _ (List.dropLast_prefix _) (by decide)
  · obtain ⟨hsome, hread⟩ := hpyRequest .get [107] [] [] [] 0 0 0 0 0
    obtain ⟨bytes, hbytes⟩ := Option.isSome_iff_exists.mp (hsome.mpr (by decide))
    obtain ⟨req, hreq, htype, hkey, _⟩ := hread bytes hbytes
    exact ⟨bytes, hbytes, req, hreq, htype, hkey⟩
  · exact hpyResponse _ "n" "" hfits rfl rfl

end Flotilla.Net
