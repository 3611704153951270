/-
  Raft.Core — the deterministic Raft core of `raft/raft.h` and
  `raft/raft.cc`, function by function.

  The core does no IO: `tick`, `step`, `propose`, `startReadIndex` and
  `compactTo` change the state and collect side effects in `ready`, and the
  host drains them with `takeReady`.  Every function of the source keeps its
  name and its order of effects.

  Reading guide:
    * 64-bit counters are `Nat`, byte strings are `List UInt8`;
    * the `unordered_map`s are association lists with distinct keys, and
      `operator[]` reads the default of an absent key;
    * `rng_` is the number of values drawn so far, and `Config.draws` is the
      sequence of values that `dist(rng_)` yields;
    * `assert`s are compiled out (the build type is RelWithDebInfo).
-/
import Flotilla.Common

namespace Flotilla.Raft

/-! ## The data of `raft.h`. -/

/-- `NodeId`: 1-based, 0 means "none". -/
abbrev NodeId := Nat

/-- `std::unordered_map<NodeId, α>`. -/
abbrev UnorderedMap (α : Type) := AList (fun _ : NodeId => α)

/-- `map[k]`: the stored value, or the default that `operator[]` creates. -/
def UnorderedMap.getD {α : Type} (m : UnorderedMap α) (k : NodeId) (d : α) : α :=
  (AList.lookup k m).getD d

structure LogEntry where
  term : Nat := 0
  index : Nat := 0
  command : Bytes := []
  deriving DecidableEq, Repr

inductive MsgKind where
  | requestVote
  | requestVoteResp
  | appendEntries
  | appendEntriesResp
  | installSnapshot
  | installSnapshotResp
  deriving DecidableEq, Repr

structure Message where
  kind : MsgKind := .requestVote
  from_ : NodeId := 0
  to_ : NodeId := 0
  term : Nat := 0
  lastLogIndex : Nat := 0
  lastLogTerm : Nat := 0
  granted : Bool := false
  prevIndex : Nat := 0
  prevTerm : Nat := 0
  commit : Nat := 0
  hbSeq : Nat := 0
  entries : List LogEntry := []
  success : Bool := false
  matchIndex : Nat := 0
  hintIndex : Nat := 0
  snapIndex : Nat := 0
  snapTerm : Nat := 0
  snapData : Bytes := []

structure HardState where
  term : Nat := 0
  votedFor : NodeId := 0

structure Snapshot where
  lastIndex : Nat := 0
  lastTerm : Nat := 0
  data : Bytes := []

inductive Role where
  | follower
  | candidate
  | leader
  deriving DecidableEq, Repr

/-- Side effects for the host to execute. -/
structure Ready where
  hardStateChanged : Bool := false
  hardState : HardState := {}
  truncateFrom : Nat := 0
  entriesToAppend : List LogEntry := []
  messages : List Message := []
  committed : List LogEntry := []
  confirmedReads : List (Nat × Nat) := []
  snapshotToApply : Option Snapshot := none

/-- `Config`; `draws k` is the `k`-th value of the election-timeout
distribution under `rng_seed`. -/
structure Config where
  id : NodeId
  peers : List NodeId
  heartbeatInterval : Int := 2
  maxEntriesPerMsg : Nat := 128
  maxBytesPerMsg : Nat := 1048576
  draws : Nat → Int := fun _ => 10

structure PendingRead where
  ctx : Nat
  readIndex : Nat
  hbSeq : Nat

/-- The class `Raft`. -/
structure Core where
  config : Config
  hard : HardState
  log : List LogEntry
  base : Snapshot
  role : Role := .follower
  leader : NodeId := 0
  commit : Nat := 0
  lastEmitted : Nat := 0
  electionElapsed : Int := 0
  electionDeadline : Int := 0
  heartbeatElapsed : Int := 0
  votes : UnorderedMap Bool := ∅
  next_ : UnorderedMap Nat := ∅
  match_ : UnorderedMap Nat := ∅
  hbAcked : UnorderedMap Nat := ∅
  hbSeq : Nat := 0
  pendingReads : List PendingRead := []
  rng : Nat := 0
  ready : Ready := {}

namespace Core

/-! ## Log accessors and small helpers. -/

def lastIndex (r : Core) : Nat := r.base.lastIndex + r.log.length

/-- `At(index)`: the entry in slot `index - base_.last_index - 1`. -/
def entryAt (r : Core) (index : Nat) : LogEntry :=
  (r.log[index - r.base.lastIndex - 1]?).getD {}

/-- `TermAt(index)`: 0 if unknown or compacted below the base. -/
def termAt (r : Core) (index : Nat) : Nat :=
  if index = r.base.lastIndex then r.base.lastTerm
  else if r.base.lastIndex < index ∧ index ≤ r.lastIndex then (r.entryAt index).term
  else 0

def lastTerm (r : Core) : Nat := r.termAt r.lastIndex

/-- `config_.peers.size() / 2 + 1`. -/
def quorum (r : Core) : Nat := r.config.peers.length / 2 + 1

def resetElectionTimer (r : Core) : Core :=
  { r with
    electionElapsed := 0
    electionDeadline := r.config.draws r.rng
    rng := r.rng + 1 }

def persistHardState (r : Core) : Core :=
  { r with ready := { r.ready with hardStateChanged := true, hardState := r.hard } }

def send (r : Core) (m : Message) : Core :=
  { r with ready := { r.ready with
      messages := r.ready.messages ++ [{ m with from_ := r.config.id, term := r.hard.term }] } }

/-- The constructor: a fresh incarnation over the persisted state. -/
def start (config : Config) (hs : HardState) (log : List LogEntry) (base : Snapshot) : Core :=
  resetElectionTimer
    { config := config, hard := hs, log := log, base := base,
      commit := base.lastIndex, lastEmitted := base.lastIndex }

/-! ## Replication: `SendAppend`, `MaybeAdvanceCommit`, `EmitCommitted`. -/

/-- The batching loop of `SendAppend` over the entries from `next` on: `n`
entries and `bytes` bytes are already in the message. -/
def takeBatch (maxEntries maxBytes : Nat) : Nat → Nat → List LogEntry → List LogEntry
  | _, _, [] => []
  | n, bytes, e :: es =>
      if maxEntries ≤ n then []
      else if maxBytes < bytes then []
      else e :: takeBatch maxEntries maxBytes (n + 1) (bytes + (e.command.length + 24)) es

def sendAppend (r : Core) (peer : NodeId) : Core :=
  let next := r.next_.getD peer 0
  if next ≤ r.base.lastIndex then
    r.send { kind := .installSnapshot, to_ := peer, snapIndex := r.base.lastIndex,
             snapTerm := r.base.lastTerm, snapData := r.base.data }
  else
    r.send { kind := .appendEntries, to_ := peer, prevIndex := next - 1,
             prevTerm := r.termAt (next - 1), commit := r.commit, hbSeq := r.hbSeq,
             entries := takeBatch r.config.maxEntriesPerMsg r.config.maxBytesPerMsg 0 0
               (r.log.drop (next - r.base.lastIndex - 1)) }

/-- `BroadcastAppend`; its flag is ignored by the source. -/
def broadcastAppend (r : Core) : Core :=
  r.config.peers.foldl (fun r peer => if peer = r.config.id then r else r.sendAppend peer) r

/-- The entries at `last_emitted_ + 1 .. commit_`, in order. -/
def emitCommitted (r : Core) : Core :=
  { r with
    lastEmitted := max r.lastEmitted r.commit
    ready := { r.ready with committed := r.ready.committed ++
      (List.range' (r.lastEmitted + 1) (r.commit - r.lastEmitted)).map r.entryAt } }

/-- How many peers are known to hold index `n`. -/
def matchCount (r : Core) (n : Nat) : Nat :=
  r.config.peers.countP (fun peer => decide (n ≤ r.match_.getD peer 0))

/-- The downward loop of `MaybeAdvanceCommit`: the index to commit, if any. -/
def commitIndexFrom (r : Core) : Nat → Option Nat
  | 0 => none
  | n + 1 =>
      if n + 1 ≤ r.commit then none
      else if r.termAt (n + 1) ≠ r.hard.term then none
      else if r.quorum ≤ r.matchCount (n + 1) then some (n + 1)
      else commitIndexFrom r n

def maybeAdvanceCommit (r : Core) : Core :=
  if r.role ≠ .leader then r
  else match r.commitIndexFrom r.lastIndex with
    | none => r
    | some n => emitCommitted { r with commit := n }

/-! ## Elections. -/

def becomeFollower (r : Core) (term : Nat) (leader : NodeId) : Core :=
  let r := if r.hard.term < term
    then persistHardState { r with hard := { term := term, votedFor := 0 } } else r
  resetElectionTimer
    { r with role := .follower, leader := leader, votes := ∅, pendingReads := [] }

/-- `log_.push_back(e)` together with `entries_to_append` and the leader's own
`match_` slot. -/
def appendLocal (r : Core) (e : LogEntry) : Core :=
  { r with
    log := r.log ++ [e]
    ready := { r.ready with entriesToAppend := r.ready.entriesToAppend ++ [e] }
    match_ := r.match_.insert r.config.id (r.lastIndex + 1) }

def becomeLeader (r : Core) : Core :=
  let r := { r with role := .leader, leader := r.config.id, heartbeatElapsed := 0,
                    hbAcked := ∅,
                    next_ := r.config.peers.foldl (fun m peer => m.insert peer (r.lastIndex + 1)) ∅,
                    match_ := r.config.peers.foldl (fun m peer => m.insert peer 0) ∅ }
  -- the no-op of the new term
  let r := r.appendLocal { term := r.hard.term, index := r.lastIndex + 1 }
  maybeAdvanceCommit (broadcastAppend { r with hbSeq := r.hbSeq + 1 })

def startElection (r : Core) : Core :=
  let r := { r with role := .candidate,
                    hard := { term := r.hard.term + 1, votedFor := r.config.id } }
  let r := resetElectionTimer
    { r.persistHardState with leader := 0, votes := (∅ : UnorderedMap Bool).insert r.config.id true }
  if r.quorum ≤ r.votes.entries.length then r.becomeLeader
  else
    r.config.peers.foldl
      (fun r peer =>
        if peer = r.config.id then r
        else r.send { kind := .requestVote, to_ := peer, lastLogIndex := r.lastIndex,
                      lastLogTerm := r.lastTerm }) r

def tick (r : Core) : Core :=
  if r.role = .leader then
    let r := { r with heartbeatElapsed := r.heartbeatElapsed + 1 }
    if r.config.heartbeatInterval ≤ r.heartbeatElapsed
    then broadcastAppend { r with heartbeatElapsed := 0, hbSeq := r.hbSeq + 1 } else r
  else
    let r := { r with electionElapsed := r.electionElapsed + 1 }
    if r.electionDeadline ≤ r.electionElapsed then r.startElection else r

/-- `Propose`: `none` when this node is not the leader. -/
def propose (r : Core) (command : Bytes) : Option Core :=
  if r.role ≠ .leader then none
  else
    let r := r.appendLocal { term := r.hard.term, index := r.lastIndex + 1, command := command }
    some (maybeAdvanceCommit (broadcastAppend r))

/-- `StartReadIndex`: `none` when it returns false. -/
def startReadIndex (r : Core) (ctx : Nat) : Option Core :=
  if r.role ≠ .leader then none
  -- until the term's no-op commits, `commit_` may lag what a prior leader acked
  else if r.termAt r.commit ≠ r.hard.term then none
  else if r.config.peers.length = 1 then
    some { r with ready := { r.ready with
      confirmedReads := r.ready.confirmedReads ++ [(ctx, r.commit)] } }
  else
    let r := { r with hbSeq := r.hbSeq + 1 }
    let r := { r with pendingReads := r.pendingReads ++ [⟨ctx, r.commit, r.hbSeq⟩] }
    some (broadcastAppend r)

/-! ## Message handlers. -/

def handleRequestVote (r : Core) (m : Message) : Core :=
  let upToDate := r.lastTerm < m.lastLogTerm ∨
    (m.lastLogTerm = r.lastTerm ∧ r.lastIndex ≤ m.lastLogIndex)
  let canVote := r.hard.votedFor = 0 ∨ r.hard.votedFor = m.from_
  let resp : Message := { kind := .requestVoteResp, to_ := m.from_ }
  if canVote ∧ upToDate then
    let r := if r.hard.votedFor ≠ m.from_
      then persistHardState { r with hard := { r.hard with votedFor := m.from_ } } else r
    r.resetElectionTimer.send { resp with granted := true }
  else r.send resp

def handleRequestVoteResp (r : Core) (m : Message) : Core :=
  if r.role ≠ .candidate then r
  else
    let r := { r with votes := r.votes.insert m.from_ m.granted }
    if r.quorum ≤ r.votes.entries.countP (fun v => v.2) then r.becomeLeader else r

/-- The body of the entry loop of `HandleAppendEntries`. -/
def appendEntry (r : Core) (e : LogEntry) : Core :=
  if e.index ≤ r.lastIndex then
    if r.termAt e.index = e.term then r  -- already have it
    else
      { r with
        log := r.log.take (e.index - r.base.lastIndex - 1) ++ [e]
        ready := { r.ready with
          truncateFrom := if r.ready.truncateFrom = 0 ∨ e.index < r.ready.truncateFrom
            then e.index else r.ready.truncateFrom
          entriesToAppend :=
            r.ready.entriesToAppend.filter (fun p => decide (p.index < e.index)) ++ [e] } }
  else
    { r with
      log := r.log ++ [e]
      ready := { r.ready with entriesToAppend := r.ready.entriesToAppend ++ [e] } }

/-- The back-off loop: the first index of the conflicting term `ct`. -/
def firstOfTerm (r : Core) (ct : Nat) : Nat → Nat
  | 0 => 0
  | first + 1 =>
      if r.base.lastIndex + 1 < first + 1 ∧ r.termAt first = ct
      then firstOfTerm r ct first else first + 1

/-- `HandleAppendEntries` after the part covered by the snapshot base is cut off. -/
def acceptEntries (r : Core) (m resp : Message) (prevIndex prevTerm : Nat)
    (entries : List LogEntry) : Core :=
  if r.lastIndex < prevIndex ∨ r.termAt prevIndex ≠ prevTerm then
    if r.lastIndex < prevIndex then
      r.send { resp with success := false, hintIndex := r.lastIndex + 1 }
    else
      r.send { resp with success := false,
                         hintIndex := r.firstOfTerm (r.termAt prevIndex) prevIndex }
  else
    let r := entries.foldl appendEntry r
    -- the follower's commit rule: everything up to its own last index
    let r := if r.commit < m.commit
      then emitCommitted { r with commit := min m.commit r.lastIndex } else r
    r.send { resp with success := true, matchIndex := prevIndex + entries.length }

def handleAppendEntries (r : Core) (m : Message) : Core :=
  let r := if r.role = .candidate then r.becomeFollower r.hard.term m.from_ else r
  let r := resetElectionTimer { r with leader := m.from_ }
  let resp : Message := { kind := .appendEntriesResp, to_ := m.from_, hbSeq := m.hbSeq }
  if m.prevIndex < r.base.lastIndex then
    let covered := r.base.lastIndex - m.prevIndex
    if m.entries.length ≤ covered then
      r.send { resp with success := true,
                         matchIndex := max r.base.lastIndex (m.prevIndex + m.entries.length) }
    else
      acceptEntries r m resp r.base.lastIndex r.base.lastTerm (m.entries.drop covered)
  else acceptEntries r m resp m.prevIndex m.prevTerm m.entries

/-- The confirmation pass over `pending_reads_`. -/
def confirmReads (r : Core) : Core :=
  let confirmed := fun (pr : PendingRead) => decide (r.quorum ≤
    1 + r.hbAcked.entries.countP (fun a => decide (a.1 ≠ r.config.id ∧ pr.hbSeq ≤ a.2)))
  { r with
    pendingReads := r.pendingReads.filter (fun pr => !confirmed pr)
    ready := { r.ready with confirmedReads := r.ready.confirmedReads ++
      (r.pendingReads.filter confirmed).map (fun pr => (pr.ctx, pr.readIndex)) } }

/-- `match_`/`next_` bookkeeping of a successful response. -/
def recordMatch (r : Core) (m : Message) : Core :=
  maybeAdvanceCommit
    { r with
      match_ := r.match_.insert m.from_ (max (r.match_.getD m.from_ 0) m.matchIndex)
      next_ := r.next_.insert m.from_ (max (r.next_.getD m.from_ 0) (m.matchIndex + 1)) }

def handleAppendEntriesResp (r : Core) (m : Message) : Core :=
  if r.role ≠ .leader then r
  else
    let r := { r with hbAcked := r.hbAcked.insert m.from_ (max (r.hbAcked.getD m.from_ 0) m.hbSeq) }
    let r := if m.success then r.recordMatch m
      else
        let next := r.next_.getD m.from_ 0
        let backoff := if m.hintIndex ≠ 0 then m.hintIndex else next - 1
        sendAppend { r with next_ := r.next_.insert m.from_ (max 1 (min backoff (next - 1))) } m.from_
    r.confirmReads

def handleInstallSnapshot (r : Core) (m : Message) : Core :=
  let r := if r.role = .candidate then r.becomeFollower r.hard.term m.from_ else r
  let r := resetElectionTimer { r with leader := m.from_ }
  let resp : Message := { kind := .installSnapshotResp, to_ := m.from_, success := true }
  if m.snapIndex ≤ r.commit then
    -- stale snapshot: already covered
    r.send { resp with matchIndex := r.commit }
  else
    let base : Snapshot := ⟨m.snapIndex, m.snapTerm, m.snapData⟩
    send
      { r with
        base := base, log := [], commit := m.snapIndex, lastEmitted := m.snapIndex
        ready := { r.ready with entriesToAppend := [], committed := [], truncateFrom := 0,
                                snapshotToApply := some base } }
      { resp with matchIndex := m.snapIndex }

def handleInstallSnapshotResp (r : Core) (m : Message) : Core :=
  if r.role ≠ .leader then r
  else if m.success then r.recordMatch m else r

/-- `Step`: a newer term converts the node first; a stale sender is told about
the newer term and otherwise ignored. -/
def step (r : Core) (m : Message) : Core :=
  if m.term < r.hard.term then
    match m.kind with
    | .requestVote => r.send { kind := .requestVoteResp, to_ := m.from_, granted := false }
    | .appendEntries => r.send { kind := .appendEntriesResp, to_ := m.from_, success := false }
    | .installSnapshot => r.send { kind := .installSnapshotResp, to_ := m.from_, success := false }
    | _ => r
  else
    let r := if r.hard.term < m.term then
        r.becomeFollower m.term
          (if m.kind = .appendEntries ∨ m.kind = .installSnapshot then m.from_ else 0)
      else r
    match m.kind with
    | .requestVote => r.handleRequestVote m
    | .requestVoteResp => r.handleRequestVoteResp m
    | .appendEntries => r.handleAppendEntries m
    | .appendEntriesResp => r.handleAppendEntriesResp m
    | .installSnapshot => r.handleInstallSnapshot m
    | .installSnapshotResp => r.handleInstallSnapshotResp m

/-! ## Compaction and draining. -/

/-- `CompactTo`: drop the log up to `appliedIndex` behind a new base. -/
def compactTo (r : Core) (appliedIndex : Nat) (snapshotData : Bytes) : Core :=
  if appliedIndex ≤ r.base.lastIndex then r
  else
    { r with
      log := r.log.drop (appliedIndex - r.base.lastIndex)
      base := ⟨appliedIndex, r.termAt appliedIndex, snapshotData⟩ }

def takeReady (r : Core) : Ready × Core := (r.ready, { r with ready := {} })

end Core

end Flotilla.Raft
