/-
  Raft.Handlers — what the core's operations do, said once.

  The proofs about elections, replication and reads never unfold a sending
  loop: `push` queues messages, `appendMessage` is the one message `SendAppend`
  builds, and every sending operation is a `push` of known messages.  The
  frame relation `SameElection` collects everything the election proof reads,
  and replication never touches it.
-/
import Flotilla.Raft.Cluster
import Flotilla.Lib.ReplicatedLog

namespace Flotilla.Raft

open ReplicatedLog

/-! ## Maps and quorums. -/

theorem UnorderedMap.getD_insert_self {α : Type} (m : UnorderedMap α) (k : NodeId) (v d : α) :
    UnorderedMap.getD (m.insert k v) k d = v := by
  simp [UnorderedMap.getD]

theorem UnorderedMap.getD_insert_of_ne {α : Type} (m : UnorderedMap α) {k k' : NodeId} (v d : α)
    (h : k' ≠ k) : UnorderedMap.getD (m.insert k v) k' d = m.getD k' d := by
  simp [UnorderedMap.getD, AList.lookup_insert_ne h]

theorem UnorderedMap.mem_insert_entries {α : Type} {m : UnorderedMap α} {k : NodeId} {v : α}
    {a : Sigma fun _ : NodeId => α} (h : a ∈ (m.insert k v).entries) :
    a = ⟨k, v⟩ ∨ a ∈ m.entries := by
  rw [AList.entries_insert] at h
  rcases mem_cons.mp h with rfl | h
  · exact .inl rfl
  · exact .inr ((List.kerase_sublist _ _).subset h)

def Membership.members (M : Membership) : Finset NodeId := M.peers.toFinset

variable {M : Membership} {n : NodeId}

@[simp] theorem Membership.mem_members :
    n ∈ M.members ↔ n ∈ M.peers := List.mem_toFinset

theorem Membership.card_members (M : Membership) : M.members.card = M.peers.length :=
  List.toFinset_card_of_nodup M.nodup

theorem Membership.ne_zero (h : n ∈ M.peers) : n ≠ 0 := by
  rintro rfl
  exact M.nonzero h

theorem Core.quorum_eq {r : Core} (h : r.config.Valid M n) :
    r.quorum = M.members.card / 2 + 1 := by
  rw [Core.quorum, h.2.length_eq, M.card_members]

theorem Core.mem_peers_iff {q : NodeId} {r : Core} (h : r.config.Valid M n) :
    q ∈ r.config.peers ↔ q ∈ M.peers := h.2.mem_iff

theorem majority_of_nodup {l : List NodeId} (hnd : l.Nodup) (hmem : ∀ v ∈ l, v ∈ M.peers)
    (hlen : M.members.card / 2 + 1 ≤ l.length) :
    Majority M.members l.toFinset := by
  refine ⟨fun v hv => ?_, ?_⟩
  · exact Membership.mem_members.mpr (hmem v (List.mem_toFinset.mp hv))
  · rw [List.toFinset_card_of_nodup hnd]; exact hlen

theorem mem_filter_keys {α : Type} {m : UnorderedMap α} {f : (Sigma fun _ : NodeId => α) → Bool}
    {v : NodeId} (hv : v ∈ (m.entries.filter f).map Sigma.fst) :
    ∃ a ∈ m.entries, f a = true ∧ a.1 = v := by
  obtain ⟨a, ha, rfl⟩ := mem_map.mp hv
  exact ⟨a, (mem_filter.mp ha).1, (mem_filter.mp ha).2, rfl⟩

theorem majority_of_entries {α : Type} {m : UnorderedMap α} {f : (Sigma fun _ : NodeId => α) → Bool}
    (hmem : ∀ a ∈ m.entries, f a = true → a.1 ∈ M.peers)
    (hlen : M.members.card / 2 + 1 ≤ m.entries.countP f) :
    ∃ Q, Majority M.members Q ∧ ∀ v ∈ Q, ∃ a ∈ m.entries, f a = true ∧ a.1 = v := by
  have hsub : ((m.entries.filter f).map Sigma.fst).Sublist m.keys :=
    List.filter_sublist.map Sigma.fst
  refine ⟨((m.entries.filter f).map Sigma.fst).toFinset, majority_of_nodup ?_ ?_ ?_, ?_⟩
  · exact m.keys_nodup.sublist hsub
  · intro v hv
    obtain ⟨a, hin, hf, rfl⟩ := mem_filter_keys hv
    exact hmem a hin hf
  · rw [length_map, ← List.countP_eq_length_filter]; exact hlen
  · exact fun v hv => mem_filter_keys (List.mem_toFinset.mp hv)

namespace Core

/-! ## Queued messages. -/

/-- Queue the finished messages `ms`. -/
def push (r : Core) (ms : List Message) : Core :=
  { r with ready := { r.ready with messages := r.ready.messages ++ ms } }

theorem send_eq (r : Core) (m : Message) :
    r.send m = r.push [{ m with from_ := r.config.id, term := r.hard.term }] := rfl

@[simp] theorem push_nil (r : Core) : r.push [] = r := by
  simp [push]

@[simp] theorem push_push (r : Core) (ms ms' : List Message) :
    (r.push ms).push ms' = r.push (ms ++ ms') := by
  simp [push, append_assoc]

@[simp] theorem push_messages (r : Core) (ms : List Message) :
    (r.push ms).ready.messages = r.ready.messages ++ ms := rfl

/-- The message that `SendAppend` builds for `peer`. -/
def appendMessage (r : Core) (peer : NodeId) : Message :=
  let next := r.next_.getD peer 0
  if next ≤ r.base.lastIndex then
    { kind := .installSnapshot, from_ := r.config.id, to_ := peer, term := r.hard.term,
      snapIndex := r.base.lastIndex, snapTerm := r.base.lastTerm, snapData := r.base.data }
  else
    { kind := .appendEntries, from_ := r.config.id, to_ := peer, term := r.hard.term,
      prevIndex := next - 1, prevTerm := r.termAt (next - 1), commit := r.commit,
      hbSeq := r.hbSeq,
      entries := takeBatch r.config.maxEntriesPerMsg r.config.maxBytesPerMsg 0 0
        (r.log.drop (next - r.base.lastIndex - 1)) }

theorem sendAppend_eq (r : Core) (peer : NodeId) :
    r.sendAppend peer = r.push [r.appendMessage peer] := by
  unfold sendAppend appendMessage
  simp only [send_eq]
  split <;> rfl

theorem appendMessage_push (r : Core) (ms : List Message) (peer : NodeId) :
    (r.push ms).appendMessage peer = r.appendMessage peer := rfl

theorem appendMessage_from (r : Core) (peer : NodeId) :
    (r.appendMessage peer).from_ = r.config.id := by
  unfold appendMessage; dsimp only; split <;> rfl

theorem appendMessage_term (r : Core) (peer : NodeId) :
    (r.appendMessage peer).term = r.hard.term := by
  unfold appendMessage; dsimp only; split <;> rfl

theorem foldl_push (r : Core) (f : Core → NodeId → Core) (g : NodeId → Message)
    (hf : ∀ ms peer, f (r.push ms) peer =
      if peer = r.config.id then r.push ms else r.push (ms ++ [g peer]))
    (peers : List NodeId) :
    peers.foldl f r = r.push ((peers.filter (fun peer => peer ≠ r.config.id)).map g) := by
  suffices h : ∀ ms, peers.foldl f (r.push ms) =
      r.push (ms ++ (peers.filter (fun peer => peer ≠ r.config.id)).map g) by
    simpa using h []
  induction peers with
  | nil => simp
  | cons peer peers ih =>
    intro ms
    rw [foldl_cons, hf]
    by_cases hp : peer = r.config.id
    · simp [hp, ih]
    · simp [hp, ih]

theorem broadcastAppend_eq (r : Core) : r.broadcastAppend =
    r.push ((r.config.peers.filter (fun peer => peer ≠ r.config.id)).map r.appendMessage) := by
  refine foldl_push r _ _ (fun ms peer => ?_) _
  have hid : (r.push ms).config.id = r.config.id := rfl
  rw [hid, sendAppend_eq, appendMessage_push, push_push]

def voteRequest (r : Core) (peer : NodeId) : Message :=
  { kind := .requestVote, from_ := r.config.id, to_ := peer, term := r.hard.term,
    lastLogIndex := r.lastIndex, lastLogTerm := r.lastTerm }

theorem foldl_voteRequest (r : Core) :
    r.config.peers.foldl
      (fun r peer =>
        if peer = r.config.id then r
        else r.send { kind := .requestVote, to_ := peer, lastLogIndex := r.lastIndex,
                      lastLogTerm := r.lastTerm }) r
      = r.push ((r.config.peers.filter (fun peer => peer ≠ r.config.id)).map r.voteRequest) := by
  refine foldl_push r _ _ (fun ms peer => ?_) _
  rw [send_eq, push_push]
  rfl

/-- The core of `StartElection` once it has voted for itself. -/
def asCandidate (r : Core) : Core :=
  let c := persistHardState
    { r with role := .candidate, hard := { term := r.hard.term + 1, votedFor := r.config.id } }
  resetElectionTimer
    { c with leader := 0, votes := (∅ : UnorderedMap Bool).insert r.config.id true }

theorem startElection_eq (r : Core) : r.startElection =
    if r.asCandidate.quorum ≤ r.asCandidate.votes.entries.length then r.asCandidate.becomeLeader
    else r.asCandidate.push ((r.asCandidate.config.peers.filter
      (fun peer => peer ≠ r.asCandidate.config.id)).map r.asCandidate.voteRequest) := by
  rw [← foldl_voteRequest]
  rfl

/-- The core of `BecomeLeader` before it appends the no-op. -/
def asLeader (r : Core) : Core :=
  { r with role := .leader, leader := r.config.id, heartbeatElapsed := 0, hbAcked := ∅,
           next_ := r.config.peers.foldl (fun m peer => m.insert peer (r.lastIndex + 1)) ∅,
           match_ := r.config.peers.foldl (fun m peer => m.insert peer 0) ∅ }

/-- The no-op of the new term is in the log, and the heartbeat round is counted. -/
def withNoop (r : Core) : Core :=
  let c := r.appendLocal { term := r.hard.term, index := r.lastIndex + 1 }
  { c with hbSeq := r.hbSeq + 1 }

theorem becomeLeader_eq (r : Core) :
    r.becomeLeader = r.asLeader.withNoop.broadcastAppend.maybeAdvanceCommit := rfl

/-! ## Frames. -/

/-- `r'` differs from `r` in nothing that elections read, and queues no vote. -/
structure SameElection (r r' : Core) : Prop where
  config : r'.config = r.config
  hard : r'.hard = r.hard
  role : r'.role = r.role
  votes : r'.votes = r.votes
  changed : r'.ready.hardStateChanged = r.ready.hardStateChanged
  hardState : r'.ready.hardState = r.ready.hardState
  messages : ∀ m ∈ r'.ready.messages, m ∈ r.ready.messages ∨
    (m.from_ = r.config.id ∧ m.term = r.hard.term ∧ m.kind ≠ .requestVoteResp)

theorem SameElection.refl (r : Core) : SameElection r r :=
  ⟨rfl, rfl, rfl, rfl, rfl, rfl, fun _ h => .inl h⟩

variable {r r' : Core}

theorem SameElection.trans {r'' : Core} (h : SameElection r r') (h' : SameElection r' r'') :
    SameElection r r'' where
  config := h'.config.trans h.config
  hard := h'.hard.trans h.hard
  role := h'.role.trans h.role
  votes := h'.votes.trans h.votes
  changed := h'.changed.trans h.changed
  hardState := h'.hardState.trans h.hardState
  messages m hm := by
    rcases h'.messages m hm with hm | ⟨hf, ht, hk⟩
    · exact h.messages m hm
    · rw [h.config] at hf
      rw [h.hard] at ht
      exact .inr ⟨hf, ht, hk⟩

theorem sameElection_push {ms : List Message}
    (h : ∀ m ∈ ms, m.from_ = r.config.id ∧ m.term = r.hard.term ∧ m.kind ≠ .requestVoteResp) :
    SameElection r (r.push ms) where
  config := rfl
  hard := rfl
  role := rfl
  votes := rfl
  changed := rfl
  hardState := rfl
  messages m hm := (mem_append.mp hm).imp id (h m)

theorem sameElection_send (r : Core) {m : Message} (h : m.kind ≠ .requestVoteResp) :
    SameElection r (r.send m) := by
  rw [send_eq]
  apply sameElection_push
  intro m' hm'
  rw [mem_singleton.mp hm']
  exact ⟨rfl, rfl, h⟩

theorem appendMessage_kind (r : Core) (peer : NodeId) :
    (r.appendMessage peer).kind ≠ .requestVoteResp := by
  unfold appendMessage; dsimp only; split <;> simp

theorem sameElection_sendAppend (r : Core) (peer : NodeId) :
    SameElection r (r.sendAppend peer) := by
  rw [sendAppend_eq]
  apply sameElection_push
  intro m hm
  rw [mem_singleton.mp hm]
  exact ⟨r.appendMessage_from peer, r.appendMessage_term peer, r.appendMessage_kind peer⟩

theorem sameElection_broadcastAppend (r : Core) : SameElection r r.broadcastAppend := by
  rw [broadcastAppend_eq]
  apply sameElection_push
  intro m hm
  obtain ⟨peer, _, rfl⟩ := mem_map.mp hm
  exact ⟨r.appendMessage_from peer, r.appendMessage_term peer, r.appendMessage_kind peer⟩

theorem sameElection_maybeAdvanceCommit (r : Core) : SameElection r r.maybeAdvanceCommit := by
  unfold maybeAdvanceCommit
  split
  · exact .refl r
  · split
    · exact .refl r
    · exact { SameElection.refl r with }

theorem sameElection_appendEntry (r : Core) (e : LogEntry) : SameElection r (r.appendEntry e) := by
  unfold appendEntry
  split
  · split
    · exact .refl r
    · exact { SameElection.refl r with }
  · exact { SameElection.refl r with }

theorem sameElection_foldl_appendEntry (r : Core) (es : List LogEntry) :
    SameElection r (es.foldl appendEntry r) := by
  induction es generalizing r with
  | nil => exact .refl r
  | cons e es ih => exact (sameElection_appendEntry r e).trans (ih _)

theorem sameElection_acceptEntries (r : Core) (m resp : Message) (prevIndex prevTerm : Nat)
    (entries : List LogEntry) (hresp : resp.kind ≠ .requestVoteResp) :
    SameElection r (r.acceptEntries m resp prevIndex prevTerm entries) := by
  unfold acceptEntries
  split
  · split
    · exact sameElection_send r hresp
    · exact sameElection_send r hresp
  · have hloop := sameElection_foldl_appendEntry r entries
    dsimp only
    split
    · refine .trans ?_ (sameElection_send _ hresp)
      exact { hloop with }
    · exact hloop.trans (sameElection_send _ hresp)

/-- A leader notes the heartbeat that comes back, then takes the match, or backs off and sends
again. -/
theorem handleAppendEntriesResp_cases {P : Core → Prop} {r : Core} (m : Message) (hother : P r)
    (hmatched : r.role = .leader → ∀ acked,
      P (recordMatch { r with hbAcked := acked } m).confirmReads)
    (hrefused : r.role = .leader → ∀ acked next,
      P (sendAppend { r with hbAcked := acked, next_ := next } m.from_).confirmReads) :
    P (r.handleAppendEntriesResp m) := by
  unfold handleAppendEntriesResp
  split
  · exact hother
  · rename_i hrole
    have hl : r.role = .leader := not_not.mp hrole
    dsimp only
    split
    · exact hmatched hl _
    · exact hrefused hl _ _

theorem sameElection_recordMatch (r : Core) (m : Message) : SameElection r (r.recordMatch m) := by
  unfold recordMatch
  refine SameElection.trans ?_ (sameElection_maybeAdvanceCommit _)
  exact { SameElection.refl r with }

theorem sameElection_confirmReads (r : Core) : SameElection r r.confirmReads :=
  { SameElection.refl r with }

theorem sameElection_handleAppendEntriesResp (r : Core) (m : Message) :
    SameElection r (r.handleAppendEntriesResp m) := by
  unfold handleAppendEntriesResp
  split
  · exact .refl r
  · dsimp only
    refine .trans ?_ (sameElection_confirmReads _)
    split
    · refine .trans ?_ (sameElection_recordMatch _ m)
      exact { SameElection.refl r with }
    · refine .trans ?_ (sameElection_sendAppend _ _)
      exact { SameElection.refl r with }

theorem sameElection_handleInstallSnapshotResp (r : Core) (m : Message) :
    SameElection r (r.handleInstallSnapshotResp m) := by
  unfold handleInstallSnapshotResp
  split
  · exact .refl r
  · split
    · exact sameElection_recordMatch r m
    · exact .refl r

theorem sameElection_appendLocal (r : Core) (e : LogEntry) :
    SameElection r (r.appendLocal e) := { SameElection.refl r with }

theorem sameElection_propose {command : Bytes} (h : r.propose command = some r') :
    SameElection r r' := by
  unfold propose at h
  split at h
  · cases h
  · cases h
    have happend := sameElection_appendLocal r
      { term := r.hard.term, index := r.lastIndex + 1, command := command }
    exact (happend.trans (sameElection_broadcastAppend _)).trans (sameElection_maybeAdvanceCommit _)

theorem sameElection_startReadIndex {ctx : Nat} (h : r.startReadIndex ctx = some r') :
    SameElection r r' := by
  unfold startReadIndex at h
  split at h
  · cases h
  · split at h
    · cases h
    · split at h
      · cases h
        exact { SameElection.refl r with }
      · cases h
        refine .trans ?_ (sameElection_broadcastAppend _)
        exact { SameElection.refl r with }

theorem sameElection_compactTo (r : Core) (applied : Nat) (data : Bytes) :
    SameElection r (r.compactTo applied data) := by
  unfold compactTo
  split
  · exact .refl r
  · exact { SameElection.refl r with }

/-! ## The messages of a leader. -/

/-- The handlers of a leader's messages begin like this. -/
def heard (f : Core) (m : Message) : Core :=
  resetElectionTimer
    { (if f.role = .candidate then f.becomeFollower f.hard.term m.from_ else f) with
      leader := m.from_ }

theorem heard_frame (f : Core) (m : Message) : (f.heard m).config = f.config ∧
    (f.heard m).hard = f.hard ∧ ((f.heard m).role = .leader → f.role = .leader) ∧
    (f.heard m).base = f.base ∧ (f.heard m).log = f.log ∧ (f.heard m).commit = f.commit ∧
    (f.heard m).ready = f.ready := by
  unfold heard
  by_cases hcand : f.role = .candidate
  · rw [if_pos hcand]
    unfold becomeFollower
    rw [if_neg (lt_irrefl _)]
    exact ⟨rfl, rfl, nofun, rfl, rfl, rfl, rfl⟩
  · rw [if_neg hcand]
    exact ⟨rfl, rfl, id, rfl, rfl, rfl, rfl⟩

/-- The answer before its verdict is filled in. -/
def appendResp (m : Message) : Message :=
  { kind := .appendEntriesResp, to_ := m.from_, hbSeq := m.hbSeq }

def snapshotResp (m : Message) (matchIndex : Nat) : Message :=
  { kind := .installSnapshotResp, to_ := m.from_, success := true, matchIndex := matchIndex }

@[simp] theorem appendResp_kind (m : Message) : (appendResp m).kind = .appendEntriesResp := rfl

@[simp] theorem snapshotResp_kind (m : Message) (i : Nat) :
    (snapshotResp m i).kind = .installSnapshotResp := rfl

theorem handleAppendEntries_heard (f : Core) (m : Message) : f.handleAppendEntries m =
    if m.prevIndex < (f.heard m).base.lastIndex then
      if m.entries.length ≤ (f.heard m).base.lastIndex - m.prevIndex then
        (f.heard m).send { appendResp m with
          success := true
          matchIndex := max (f.heard m).base.lastIndex (m.prevIndex + m.entries.length) }
      else
        acceptEntries (f.heard m) m (appendResp m) (f.heard m).base.lastIndex
          (f.heard m).base.lastTerm (m.entries.drop ((f.heard m).base.lastIndex - m.prevIndex))
    else acceptEntries (f.heard m) m (appendResp m) m.prevIndex m.prevTerm m.entries := rfl

theorem handleInstallSnapshot_heard (f : Core) (m : Message) : f.handleInstallSnapshot m =
    if m.snapIndex ≤ (f.heard m).commit then
      (f.heard m).send (snapshotResp m (f.heard m).commit)
    else
      send
        { f.heard m with
          base := ⟨m.snapIndex, m.snapTerm, m.snapData⟩, log := [], commit := m.snapIndex
          lastEmitted := m.snapIndex
          ready := { (f.heard m).ready with
            entriesToAppend := [], committed := [], truncateFrom := 0
            snapshotToApply := some ⟨m.snapIndex, m.snapTerm, m.snapData⟩ } }
        (snapshotResp m m.snapIndex) := rfl

end Core

end Flotilla.Raft
