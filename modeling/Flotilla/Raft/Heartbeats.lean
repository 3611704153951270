/-
  Raft.Heartbeats — heartbeat rounds and their echoes.

  A leader counts its heartbeat rounds in `hb_seq_`, and a follower's response
  echoes the round of the append it answers.  The ghost state remembers for
  every term the round its leader has reached and the latest round every node
  has echoed.  A node that has left a term never echoes one of its rounds again,
  which is what an echo quorum proves to the leader.
-/
import Flotilla.Raft.Reachable

namespace Flotilla.Raft

open Core
open ReplicatedLog

namespace Core

/-! ## Operations that leave rounds and reads alone. -/

/-- `r'` differs from `r` in nothing that reads depend on.  It sends appends only as
leader and in the current round, and echoes no round above `k`. -/
structure SameReads (k : Nat) (r r' : Core) : Prop where
  config : r'.config = r.config := by rfl
  term : r'.hard.term = r.hard.term := by rfl
  role : r'.role = r.role := by rfl
  hbSeq : r'.hbSeq = r.hbSeq := by rfl
  hbAcked : r'.hbAcked = r.hbAcked := by rfl
  pendingReads : r'.pendingReads = r.pendingReads := by rfl
  confirmedReads : r'.ready.confirmedReads = r.ready.confirmedReads := by rfl
  commit : r.role = .leader → r.commit ≤ r'.commit := by exact fun _ => Nat.le_refl _
  messages : ∀ m ∈ r'.ready.messages, m ∈ r.ready.messages ∨
    (m.from_ = r.config.id ∧ m.term = r.hard.term ∧
      (m.kind = .appendEntries → r.role = .leader ∧ m.hbSeq = r.hbSeq) ∧
      (m.kind = .appendEntriesResp → m.hbSeq ≤ k)) := by exact fun _ h => Or.inl h

theorem SameReads.refl (k : Nat) (r : Core) : SameReads k r r := {}

variable {k : Nat} {r : Core}

theorem SameReads.trans {r' r'' : Core} (h : SameReads k r r') (h' : SameReads k r' r'') :
    SameReads k r r'' where
  config := h'.config.trans h.config
  term := h'.term.trans h.term
  role := h'.role.trans h.role
  hbSeq := h'.hbSeq.trans h.hbSeq
  hbAcked := h'.hbAcked.trans h.hbAcked
  pendingReads := h'.pendingReads.trans h.pendingReads
  confirmedReads := h'.confirmedReads.trans h.confirmedReads
  commit hl := (h.commit hl).trans (h'.commit (h.role.trans hl))
  messages m hm := by
    rcases h'.messages m hm with hm | hm
    · exact h.messages m hm
    · rw [h.config, h.term, h.role, h.hbSeq] at hm
      exact .inr hm

theorem sameReads_push {ms : List Message}
    (h : ∀ m ∈ ms, m.from_ = r.config.id ∧ m.term = r.hard.term ∧
      (m.kind = .appendEntries → r.role = .leader ∧ m.hbSeq = r.hbSeq) ∧
      (m.kind = .appendEntriesResp → m.hbSeq ≤ k)) : SameReads k r (r.push ms) :=
  { messages := fun m hm => (mem_append.mp hm).imp id (h m) }

theorem sameReads_send (r : Core) {m : Message} (hkind : m.kind ≠ .appendEntries)
    (hecho : m.kind = .appendEntriesResp → m.hbSeq ≤ k) : SameReads k r (r.send m) := by
  rw [send_eq]
  apply sameReads_push
  intro m' hm'
  rw [mem_singleton.mp hm']
  exact ⟨rfl, rfl, fun hk => absurd hk hkind, hecho⟩

theorem appendMessage_round (r : Core) (peer : NodeId) :
    ((r.appendMessage peer).kind = .appendEntries → (r.appendMessage peer).hbSeq = r.hbSeq) ∧
      (r.appendMessage peer).kind ≠ .appendEntriesResp := by
  unfold appendMessage
  dsimp only
  split <;> simp

theorem sameReads_appendMessage (hl : r.role = .leader) (peers : List NodeId) :
    SameReads k r (r.push (peers.map r.appendMessage)) := by
  apply sameReads_push
  intro m hm
  obtain ⟨peer, _, rfl⟩ := mem_map.mp hm
  obtain ⟨hround, hkind⟩ := r.appendMessage_round peer
  exact ⟨r.appendMessage_from peer, r.appendMessage_term peer, fun hk => ⟨hl, hround hk⟩,
    fun hk => absurd hk hkind⟩

theorem sameReads_sendAppend (hl : r.role = .leader) (peer : NodeId) :
    SameReads k r (r.sendAppend peer) := by
  rw [sendAppend_eq]
  exact sameReads_appendMessage hl [peer]

theorem sameReads_broadcastAppend (hl : r.role = .leader) :
    SameReads k r r.broadcastAppend := by
  rw [broadcastAppend_eq]
  exact sameReads_appendMessage hl _

theorem commit_lt_commitIndexFrom {i n : Nat} (h : r.commitIndexFrom i = some n) :
    r.commit < n := by
  induction i with
  | zero => cases h
  | succ i ih =>
    unfold commitIndexFrom at h
    split at h
    · cases h
    · split at h
      · cases h
      · split at h
        · cases h
          omega
        · exact ih h

theorem sameReads_maybeAdvanceCommit (k : Nat) (r : Core) :
    SameReads k r r.maybeAdvanceCommit := by
  unfold maybeAdvanceCommit
  split
  · exact .refl k r
  · split
    · exact .refl k r
    · rename_i n hn
      exact { commit := fun _ => (commit_lt_commitIndexFrom hn).le }

theorem sameReads_recordMatch (k : Nat) (r : Core) (m : Message) :
    SameReads k r (r.recordMatch m) := by
  unfold recordMatch
  refine .trans ?_ (sameReads_maybeAdvanceCommit k _)
  exact {}

theorem sameReads_propose {r' : Core} {command : Bytes} (h : r.propose command = some r') :
    SameReads k r r' := by
  unfold propose at h
  split at h
  · cases h
  · rename_i hl
    rw [not_not] at hl
    cases h
    have happend : SameReads k r (r.appendLocal
        { term := r.hard.term, index := r.lastIndex + 1, command := command }) := {}
    exact (happend.trans (sameReads_broadcastAppend hl)).trans (sameReads_maybeAdvanceCommit k _)

theorem sameReads_handleRequestVote (r : Core) (m : Message) :
    SameReads 0 r (r.handleRequestVote m) := by
  unfold handleRequestVote
  dsimp only
  split
  · refine .trans ?_ (sameReads_send _ (by simp) (by simp))
    split <;> exact {}
  · exact sameReads_send _ (by simp) (by simp)

theorem sameReads_handleInstallSnapshotResp (r : Core) (m : Message) :
    SameReads 0 r (r.handleInstallSnapshotResp m) := by
  unfold handleInstallSnapshotResp
  split
  · exact .refl 0 r
  · split
    · exact sameReads_recordMatch 0 r m
    · exact .refl 0 r

theorem sameReads_appendEntry (k : Nat) (r : Core) (e : LogEntry) :
    SameReads k r (r.appendEntry e) := by
  unfold appendEntry
  split
  · split <;> exact {}
  · exact {}

theorem sameReads_foldl_appendEntry (k : Nat) (r : Core) (es : List LogEntry) :
    SameReads k r (es.foldl appendEntry r) := by
  induction es generalizing r with
  | nil => exact .refl k r
  | cons e es ih => exact (sameReads_appendEntry k r e).trans (ih _)

theorem sameReads_acceptEntries (hrole : r.role ≠ .leader) (m resp : Message)
    (hresp : resp.kind = .appendEntriesResp) (prevIndex prevTerm : Nat) (entries : List LogEntry) :
    SameReads resp.hbSeq r (r.acceptEntries m resp prevIndex prevTerm entries) := by
  have hsend : ∀ (c : Core) (m' : Message), m'.kind = .appendEntriesResp →
      m'.hbSeq = resp.hbSeq → SameReads resp.hbSeq c (c.send m') :=
    fun c m' hk hs => sameReads_send c (by rw [hk]; simp) (fun _ => hs.le)
  unfold acceptEntries
  split
  · split
    · exact hsend _ _ hresp rfl
    · exact hsend _ _ hresp rfl
  · have hloop := sameReads_foldl_appendEntry resp.hbSeq r entries
    dsimp only
    split
    · refine .trans ?_ (hsend _ _ hresp rfl)
      exact { hloop with commit := fun hl => absurd hl hrole }
    · exact hloop.trans (hsend _ _ hresp rfl)

theorem sameReads_stale (r : Core) (m : Message) (hstale : m.term < r.hard.term) :
    SameReads 0 r (r.step m) := by
  unfold step
  rw [if_pos hstale]
  split
  · exact sameReads_send _ (by simp) (by simp)
  · exact sameReads_send _ (by simp) (by simp)
  · exact sameReads_send _ (by simp) (by simp)
  · exact .refl 0 r

end Core

/-! ## Rounds and echoes. -/

structure Beats where
  /-- The heartbeat round that the leader of a term has reached. -/
  seq : Nat → Nat
  /-- The latest round of a term that a node has echoed. -/
  echo : Nat → NodeId → Nat

structure BeatMsg (β : Beats) (m : Message) : Prop where
  round : m.kind = .appendEntries → m.hbSeq ≤ β.seq m.term
  echoed : m.kind = .appendEntriesResp → m.hbSeq ≤ β.echo m.term m.from_

structure BeatNode (M : Membership) (β : Beats) (p : NodeId) (r : Core) : Prop where
  valid : r.config.Valid M p
  round : r.role = .leader → r.hbSeq = β.seq r.hard.term
  acked : r.role = .leader →
    ∀ a ∈ r.hbAcked.entries, a.1 ∈ M.peers ∧ a.2 ≤ β.echo r.hard.term a.1
  idle : r.role ≠ .leader → r.pendingReads = []
  msgs : ∀ m ∈ r.ready.messages, BeatMsg β m

namespace Beats

/-- Nobody echoes a round before it begins. -/
def Bounded (β : Beats) : Prop := ∀ t q, β.echo t q ≤ β.seq t

/-- What an operation of node `p` that ends in `r` may change. -/
structure Moves (p : NodeId) (r : Core) (β β' : Beats) : Prop where
  seq_le : ∀ t, β.seq t ≤ β'.seq t
  echo_le : ∀ t q, β.echo t q ≤ β'.echo t q
  seq_other : ∀ t, β'.seq t = β.seq t ∨ (r.role = .leader ∧ t = r.hard.term)
  echo_other : ∀ t q, β'.echo t q = β.echo t q ∨ (q = p ∧ t = r.hard.term)

theorem Moves.refl (p : NodeId) (r : Core) (β : Beats) : Moves p r β β :=
  ⟨fun _ => le_rfl, fun _ _ => le_rfl, fun _ => .inl rfl, fun _ _ => .inl rfl⟩

/-- The leader of term `t` begins round `n`. -/
def count (β : Beats) (t n : Nat) : Beats := { β with seq := Function.update β.seq t n }

/-- Node `p` echoes round `n` of term `t`. -/
def heard (β : Beats) (t : Nat) (p : NodeId) (n : Nat) : Beats :=
  { β with echo := fun u q => if u = t ∧ q = p then max (β.echo u q) n else β.echo u q }

section

variable {β : Beats} {t n : Nat} {p : NodeId} {r : Core}

theorem count_self : (β.count t n).seq t = n := update_self ..

theorem seq_le_count (hle : β.seq t ≤ n) (u : Nat) : β.seq u ≤ (β.count t n).seq u := by
  by_cases hu : u = t
  · subst hu
    show β.seq u ≤ update β.seq u n u
    rw [update_self]
    exact hle
  · show β.seq u ≤ update β.seq t n u
    rw [update_of_ne hu]

theorem moves_count (hle : β.seq t ≤ n) (hl : r.role = .leader) (ht : r.hard.term = t) :
    β.Moves p r (β.count t n) where
  seq_le := seq_le_count hle
  echo_le _ _ := le_rfl
  seq_other u := by
    by_cases hu : u = t
    · exact .inr ⟨hl, hu.trans ht.symm⟩
    · exact .inl (update_of_ne hu ..)
  echo_other _ _ := .inl rfl

theorem Bounded.count (hβ : β.Bounded) (hle : β.seq t ≤ n) : (β.count t n).Bounded :=
  fun u q => (hβ u q).trans (seq_le_count hle u)

theorem echo_le_heard (u : Nat) (q : NodeId) : β.echo u q ≤ (β.heard t p n).echo u q := by
  show β.echo u q ≤ if u = t ∧ q = p then max (β.echo u q) n else β.echo u q
  split
  · exact Nat.le_max_left _ _
  · exact le_rfl

theorem le_heard : n ≤ (β.heard t p n).echo t p := by
  show n ≤ if t = t ∧ p = p then max (β.echo t p) n else β.echo t p
  rw [if_pos ⟨rfl, rfl⟩]
  exact Nat.le_max_right _ _

theorem moves_heard (ht : r.hard.term = t) : β.Moves p r (β.heard t p n) where
  seq_le _ := le_rfl
  echo_le := echo_le_heard
  seq_other _ := .inl rfl
  echo_other u q := by
    by_cases hu : u = t ∧ q = p
    · exact .inr ⟨hu.2, hu.1.trans ht.symm⟩
    · exact .inl (if_neg hu)

theorem Bounded.heard (hβ : β.Bounded) (hle : n ≤ β.seq t) : (β.heard t p n).Bounded := by
  intro u q
  show (if u = t ∧ q = p then max (β.echo u q) n else β.echo u q) ≤ β.seq u
  split
  · rename_i hu
    rw [hu.1]
    exact max_le (hβ t q) hle
  · exact hβ u q

end

end Beats

section

variable {M : Membership} {β β' : Beats} {p q : NodeId} {r r' : Core} {m : Message}

theorem BeatMsg.mono (h : BeatMsg β m) (hseq : ∀ t, β.seq t ≤ β'.seq t)
    (hecho : ∀ t q, β.echo t q ≤ β'.echo t q) : BeatMsg β' m where
  round hk := (h.round hk).trans (hseq _)
  echoed hk := (h.echoed hk).trans (hecho _ _)

theorem BeatNode.same {k : Nat} (h : BeatNode M β p r) (hs : Core.SameReads k r r')
    (hk : k ≤ β.echo r.hard.term p) : BeatNode M β p r' where
  valid := by rw [hs.config]; exact h.valid
  round := by rw [hs.role, hs.hbSeq, hs.term]; exact h.round
  acked := by rw [hs.role, hs.hbAcked, hs.term]; exact h.acked
  idle := by rw [hs.role, hs.pendingReads]; exact h.idle
  msgs m hm := by
    rcases hs.messages m hm with hm | ⟨hfrom, hterm, happend, hecho⟩
    · exact h.msgs m hm
    · refine ⟨fun hkind => ?_, fun hkind => ?_⟩
      · obtain ⟨hl, hround⟩ := happend hkind
        rw [hround, hterm]
        exact (h.round hl).le
      · rw [hterm, hfrom, h.valid.1]
        exact (hecho hkind).trans hk

theorem BeatNode.of_not_leader (hvalid : r.config.Valid M p) (hrole : r.role ≠ .leader)
    (hidle : r.pendingReads = []) (hmsgs : ∀ m ∈ r.ready.messages, BeatMsg β m) :
    BeatNode M β p r :=
  ⟨hvalid, fun hl => absurd hl hrole, fun hl => absurd hl hrole, fun _ => hidle, hmsgs⟩

theorem Core.becomeFollower_reads (r : Core) (t : Nat) (leader : NodeId) :
    (r.becomeFollower t leader).config = r.config ∧
      (r.becomeFollower t leader).pendingReads = [] ∧
      (r.becomeFollower t leader).ready.confirmedReads = r.ready.confirmedReads ∧
      (r.becomeFollower t leader).ready.messages = r.ready.messages := by
  unfold Core.becomeFollower
  split <;> exact ⟨rfl, rfl, rfl, rfl⟩

theorem BeatNode.becomeFollower (h : BeatNode M β p r) (t : Nat) (leader : NodeId) :
    BeatNode M β p (r.becomeFollower t leader) := by
  obtain ⟨hconfig, hreads, _, hmsgs⟩ := r.becomeFollower_reads t leader
  refine .of_not_leader (by rw [hconfig]; exact h.valid) ?_ hreads (by rw [hmsgs]; exact h.msgs)
  rw [(r.becomeFollower_frame t leader).1]
  simp

theorem BeatNode.nextRound (h : BeatNode M β p r) (hl : r.role = .leader) (hl' : r'.role = .leader)
    (hconfig : r'.config = r.config) (hterm : r'.hard.term = r.hard.term)
    (hseq : r'.hbSeq = r.hbSeq + 1) (hacked : r'.hbAcked = r.hbAcked)
    (hmsgs : r'.ready.messages = r.ready.messages) :
    BeatNode M (β.count r.hard.term (r.hbSeq + 1)) p r' where
  valid := by rw [hconfig]; exact h.valid
  round _ := by
    rw [hseq, hterm]
    exact Beats.count_self.symm
  acked _ := by rw [hacked, hterm]; exact h.acked hl
  idle hn := absurd hl' hn
  msgs m hm := by
    rw [hmsgs] at hm
    have hle : β.seq r.hard.term ≤ r.hbSeq + 1 := by
      rw [← h.round hl]
      omega
    exact (h.msgs m hm).mono (Beats.seq_le_count hle) (fun _ _ => le_rfl)

theorem BeatNode.becomeLeader (h : BeatNode M β p r) (hfresh : β.seq r.hard.term = 0) :
    BeatNode M (β.count r.hard.term (r.hbSeq + 1)) p r.becomeLeader := by
  have hle : β.seq r.hard.term ≤ r.hbSeq + 1 := by omega
  have hcrown : BeatNode M (β.count r.hard.term (r.hbSeq + 1)) p r.asLeader.withNoop :=
    { valid := h.valid
      round := fun _ => (Beats.count_self (t := r.hard.term) (n := r.hbSeq + 1)).symm
      acked := nofun
      idle := fun hn => absurd rfl hn
      msgs := fun m hm => (h.msgs m hm).mono (Beats.seq_le_count hle) (fun _ _ => le_rfl) }
  rw [becomeLeader_eq]
  have hsend : Core.SameReads 0 r.asLeader.withNoop r.asLeader.withNoop.broadcastAppend :=
    Core.sameReads_broadcastAppend rfl
  exact hcrown.same (hsend.trans (Core.sameReads_maybeAdvanceCommit 0 _)) (Nat.zero_le _)

end

/-! ## What an operation does to reads. -/

/-- The core may register or answer a read at its commit index. -/
def Core.Serves (r : Core) : Prop := r.role = .leader ∧ r.termAt r.commit = r.hard.term

/-- All that an operation of node `p` can do to reads. -/
structure ReadsFrom (M : Membership) (β β' : Beats) (p : NodeId) (r r' : Core) : Prop where
  pending : ∀ pr ∈ r'.pendingReads, r'.hard.term = r.hard.term ∧ (pr ∈ r.pendingReads ∨
    (r.Serves ∧ pr.readIndex = r.commit ∧ β.seq r.hard.term < pr.hbSeq))
  confirmed : ∀ x ∈ r'.ready.confirmedReads,
    (∃ pr ∈ r.pendingReads, x = (pr.ctx, pr.readIndex) ∧
      ∃ Q, Majority M.members Q ∧ ∀ q ∈ Q, q = p ∨ pr.hbSeq ≤ β'.echo r.hard.term q) ∨
    (r.Serves ∧ x.2 = r.commit ∧ Majority M.members {p})
  lead : r.role = .leader → r'.role = .leader →
    r'.hard.term = r.hard.term ∧ r.commit ≤ r'.commit

/-- The operation of node `p` from `r` to `r'` keeps rounds, echoes and reads right. -/
def BeatOk (M : Membership) (β : Beats) (p : NodeId) (r r' : Core) : Prop :=
  ∃ β', β.Moves p r' β' ∧ β'.Bounded ∧ BeatNode M β' p r' ∧ ReadsFrom M β β' p r r'

section

variable {M : Membership} {β β' : Beats} {p q : NodeId} {r r' : Core} {m : Message}

theorem BeatOk.of_same (h : BeatNode M β p r) (hβ : β.Bounded) (hs : Core.SameReads 0 r r')
    (hnone : r.ready.confirmedReads = []) : BeatOk M β p r r' := by
  refine ⟨β, Beats.Moves.refl p r' β, hβ, h.same hs (Nat.zero_le _), ?_, ?_, ?_⟩
  · intro pr hpr
    rw [hs.pendingReads] at hpr
    exact ⟨hs.term, .inl hpr⟩
  · intro x hx
    rw [hs.confirmedReads, hnone] at hx
    cases hx
  · exact fun hl _ => ⟨hs.term, hs.commit hl⟩

theorem BeatOk.of_idle (hmoves : β.Moves p r' β') (hβ : β'.Bounded) (h : BeatNode M β' p r')
    (hidle : r'.pendingReads = []) (hnone : r'.ready.confirmedReads = [])
    (hnew : r.role = .leader → r'.role ≠ .leader) : BeatOk M β p r r' := by
  refine ⟨β', hmoves, hβ, h, ?_, ?_, ?_⟩
  · intro pr hpr
    rw [hidle] at hpr
    cases hpr
  · intro x hx
    rw [hnone] at hx
    cases hx
  · exact fun hl hl' => absurd hl' (hnew hl)

theorem BeatOk.of_not_leader (hmoves : β.Moves p r' β') (hβ : β'.Bounded)
    (h : BeatNode M β' p r') (hrole : r'.role ≠ .leader)
    (hnone : r'.ready.confirmedReads = []) : BeatOk M β p r r' :=
  .of_idle hmoves hβ h (h.idle hrole) hnone (fun _ => hrole)

theorem Core.becomeLeader_reads (r : Core) :
    r.becomeLeader.pendingReads = r.pendingReads ∧
      r.becomeLeader.ready.confirmedReads = r.ready.confirmedReads := by
  rw [becomeLeader_eq]
  have hsend : Core.SameReads 0 r.asLeader.withNoop r.asLeader.withNoop.broadcastAppend :=
    Core.sameReads_broadcastAppend rfl
  have hsame := hsend.trans (Core.sameReads_maybeAdvanceCommit 0 _)
  exact ⟨hsame.pendingReads, hsame.confirmedReads⟩

theorem BeatOk.of_becomeLeader {c : Core} (h : BeatNode M β p c) (hβ : β.Bounded)
    (hrole : c.role ≠ .leader) (hnone : c.ready.confirmedReads = [])
    (hfresh : β.seq c.hard.term = 0) (hr : r.role ≠ .leader) : BeatOk M β p r c.becomeLeader := by
  obtain ⟨hpending, hconfirmed⟩ := c.becomeLeader_reads
  have hle : β.seq c.hard.term ≤ c.hbSeq + 1 := by omega
  refine .of_idle (Beats.moves_count hle c.becomeLeader_role ?_) (hβ.count hle)
    (h.becomeLeader hfresh) ?_ ?_ (fun hl => absurd hl hr)
  · rw [c.becomeLeader_hard]
  · rw [hpending]
    exact h.idle hrole
  · rw [hconfirmed]
    exact hnone

/-! ## Ticks, proposals and reads. -/

theorem BeatNode.tick (h : BeatNode M β p r) (hβ : β.Bounded)
    (hnone : r.ready.confirmedReads = [])
    (hfresh : r.tick.role = .leader → r.role ≠ .leader → β.seq r.tick.hard.term = 0) :
    BeatOk M β p r r.tick := by
  by_cases hl : r.role = .leader
  · unfold Core.tick
    rw [if_pos hl]
    dsimp only
    split
    · -- a heartbeat: the next round, sent to everybody
      obtain ⟨c, hc⟩ : ∃ c : Core,
        c = { r with heartbeatElapsed := 0, hbSeq := r.hbSeq + 1 } := ⟨_, rfl⟩
      have hround : BeatNode M (β.count r.hard.term (r.hbSeq + 1)) p c := by
        subst hc
        exact h.nextRound hl hl rfl rfl rfl rfl rfl
      have hle : β.seq r.hard.term ≤ r.hbSeq + 1 := by
        rw [← h.round hl]
        omega
      have hlc : c.role = .leader := by rw [hc]; exact hl
      have hs : Core.SameReads 0 c c.broadcastAppend := Core.sameReads_broadcastAppend hlc
      rw [← hc]
      refine ⟨β.count r.hard.term (r.hbSeq + 1), Beats.moves_count hle (hs.role.trans hlc) ?_,
        hβ.count hle, hround.same hs (Nat.zero_le _), ?_, ?_, ?_⟩
      · rw [hs.term, hc]
      · intro pr hpr
        rw [hs.pendingReads, hc] at hpr
        exact ⟨by rw [hs.term, hc], .inl hpr⟩
      · intro x hx
        rw [hs.confirmedReads, hc] at hx
        rw [show r.ready.confirmedReads = [] from hnone] at hx
        cases hx
      · intro _ _
        have := hs.commit hlc
        rw [hs.term]
        rw [hc] at this ⊢
        exact ⟨rfl, this⟩
    · exact .of_same h hβ {} hnone
  · obtain ⟨c, hc⟩ : ∃ c : Core, c = { r with electionElapsed := r.electionElapsed + 1 } := ⟨_, rfl⟩
    have htick : r.tick =
        if c.electionDeadline ≤ c.electionElapsed then c.startElection else c := by
      unfold Core.tick
      rw [if_neg hl, hc]
    have hsame : Core.SameReads 0 r c := by rw [hc]; exact {}
    rw [htick] at hfresh ⊢
    split
    · rename_i hdue
      rw [if_pos hdue] at hfresh
      have hcand : BeatNode M β p c.asCandidate := by
        refine .of_not_leader ?_ (by simp [Core.asCandidate, resetElectionTimer,
          Core.persistHardState]) ?_ ?_
        · show c.config.Valid M p
          rw [hsame.config]
          exact h.valid
        · show c.pendingReads = []
          rw [hsame.pendingReads]
          exact h.idle hl
        · exact (h.same hsame (Nat.zero_le _)).msgs
      have hnone' : c.asCandidate.ready.confirmedReads = [] := by
        show c.ready.confirmedReads = []
        rw [hsame.confirmedReads]
        exact hnone
      have hnl : c.asCandidate.role ≠ .leader := by
        simp [Core.asCandidate, resetElectionTimer, Core.persistHardState]
      rw [startElection_eq] at hfresh ⊢
      split
      · -- alone in the cluster: leader at once
        rename_i hquorum
        rw [if_pos hquorum] at hfresh
        refine .of_becomeLeader hcand hβ hnl hnone' ?_ hl
        have hzero := hfresh c.asCandidate.becomeLeader_role hl
        rw [becomeLeader_hard] at hzero
        exact hzero
      · have hs : Core.SameReads 0 c.asCandidate (c.asCandidate.push
            ((c.asCandidate.config.peers.filter (fun peer => peer ≠ c.asCandidate.config.id)).map
              c.asCandidate.voteRequest)) := by
          apply Core.sameReads_push
          intro m hm
          obtain ⟨peer, _, rfl⟩ := mem_map.mp hm
          exact ⟨rfl, rfl, (fun hk => absurd hk (by simp [voteRequest])),
            (fun hk => absurd hk (by simp [voteRequest]))⟩
        exact .of_not_leader (Beats.Moves.refl ..) hβ (hcand.same hs (Nat.zero_le _))
          (by rw [hs.role]; exact hnl) (by rw [hs.confirmedReads]; exact hnone')
    · exact .of_same h hβ hsame hnone

theorem majority_alone (hp : p ∈ M.peers) (hone : M.peers.length = 1) :
    Majority M.members {p} := by
  refine ⟨fun v hv => ?_, ?_⟩
  · rw [Finset.mem_singleton.mp hv]
    exact Membership.mem_members.mpr hp
  · rw [M.card_members, hone, Finset.card_singleton]

theorem BeatNode.startReadIndex (h : BeatNode M β p r) (hβ : β.Bounded) (hp : p ∈ M.peers)
    (hnone : r.ready.confirmedReads = []) {ctx : Nat} (hr : r.startReadIndex ctx = some r') :
    BeatOk M β p r r' := by
  unfold Core.startReadIndex at hr
  split at hr
  · cases hr
  · rename_i hl
    rw [not_not] at hl
    split at hr
    · cases hr
    · rename_i hown
      rw [not_not] at hown
      split at hr
      · -- a single node answers at once
        rename_i hone
        cases hr
        refine ⟨β, Beats.Moves.refl .., hβ, { h with }, ?_, ?_, fun _ _ => ⟨rfl, le_rfl⟩⟩
        · exact fun pr hpr => ⟨rfl, .inl hpr⟩
        · intro x hx
          have hx : x ∈ r.ready.confirmedReads ++ [(ctx, r.commit)] := hx
          rw [hnone, nil_append, mem_singleton] at hx
          subst hx
          rw [h.valid.2.length_eq] at hone
          exact .inr ⟨⟨hl, hown⟩, rfl, majority_alone hp hone⟩
      · obtain ⟨c, hc⟩ : ∃ c : Core, c = { r with
            hbSeq := r.hbSeq + 1,
            pendingReads := r.pendingReads ++ [⟨ctx, r.commit, r.hbSeq + 1⟩] } := ⟨_, rfl⟩
        have hr : some c.broadcastAppend = some r' := by rw [hc]; exact hr
        cases hr
        have hlc : c.role = .leader := by rw [hc]; exact hl
        have hle : β.seq r.hard.term ≤ r.hbSeq + 1 := by
          rw [← h.round hl]
          omega
        have hround : BeatNode M (β.count r.hard.term (r.hbSeq + 1)) p c := by
          subst hc
          exact h.nextRound hl hl rfl rfl rfl rfl rfl
        have hs : Core.SameReads 0 c c.broadcastAppend := Core.sameReads_broadcastAppend hlc
        refine ⟨β.count r.hard.term (r.hbSeq + 1), Beats.moves_count hle (hs.role.trans hlc) ?_,
          hβ.count hle, hround.same hs (Nat.zero_le _), ?_, ?_, ?_⟩
        · rw [hs.term, hc]
        · intro pr hpr
          refine ⟨by rw [hs.term, hc], ?_⟩
          rw [hs.pendingReads, hc] at hpr
          rcases mem_append.mp hpr with hpr | hpr
          · exact .inl hpr
          · rw [mem_singleton.mp hpr]
            refine .inr ⟨⟨hl, hown⟩, rfl, ?_⟩
            show β.seq r.hard.term < r.hbSeq + 1
            rw [← h.round hl]
            omega
        · intro x hx
          rw [hs.confirmedReads, hc] at hx
          rw [show r.ready.confirmedReads = [] from hnone] at hx
          cases hx
        · intro _ _
          have := hs.commit hlc
          rw [hs.term]
          rw [hc] at this ⊢
          exact ⟨rfl, this⟩

/-! ## Messages. -/

theorem BeatNode.heard (h : BeatNode M β p r) (m : Message) : BeatNode M β p (r.heard m) := by
  unfold Core.heard
  split
  · exact (h.becomeFollower r.hard.term m.from_).same (k := 0) {} (Nat.zero_le _)
  · exact h.same (k := 0) {} (Nat.zero_le _)

variable {r₀ : Core}

theorem BeatNode.handleAppendEntries (h : BeatNode M β p r) (hrole : r.role ≠ .leader)
    (hβ : β.Bounded) (hm : BeatMsg β m) (hkind : m.kind = .appendEntries)
    (hterm : m.term = r.hard.term) (hnone : r.ready.confirmedReads = []) :
    BeatOk M β p r₀ (r.handleAppendEntries m) := by
  have hheard : BeatNode M (β.heard r.hard.term p m.hbSeq) p r :=
    .of_not_leader h.valid hrole (h.idle hrole)
      (fun m' hm' => (h.msgs m' hm').mono (fun _ => le_rfl) Beats.echo_le_heard)
  have hnode := hheard.heard m
  obtain ⟨_, hhard, hlead, _, _, _, hready⟩ := r.heard_frame m
  have hcrole : (r.heard m).role ≠ .leader := fun hl => hrole (hlead hl)
  have hcterm := congrArg HardState.term hhard
  have hsame : Core.SameReads m.hbSeq (r.heard m) (r.handleAppendEntries m) := by
    rw [handleAppendEntries_heard]
    split
    · split
      · exact Core.sameReads_send _ (by simp) (fun _ => le_rfl)
      · exact Core.sameReads_acceptEntries hcrole m (appendResp m) rfl _ _ _
    · exact Core.sameReads_acceptEntries hcrole m (appendResp m) rfl _ _ _
  have hround : m.hbSeq ≤ β.seq r.hard.term := by
    rw [← hterm]
    exact hm.round hkind
  refine .of_not_leader (Beats.moves_heard (hsame.term.trans hcterm)) (hβ.heard hround)
    (hnode.same hsame ?_) (by rw [hsame.role]; exact hcrole) ?_
  · rw [hcterm]
    exact Beats.le_heard
  · rw [hsame.confirmedReads, hready]
    exact hnone

theorem BeatNode.handleInstallSnapshot (h : BeatNode M β p r) (hrole : r.role ≠ .leader)
    (hβ : β.Bounded) (hnone : r.ready.confirmedReads = []) :
    BeatOk M β p r₀ (r.handleInstallSnapshot m) := by
  have hnode := h.heard m
  obtain ⟨_, _, hlead, _, _, _, hready⟩ := r.heard_frame m
  have hcrole : (r.heard m).role ≠ .leader := fun hl => hrole (hlead hl)
  have hsame : Core.SameReads 0 (r.heard m) (r.handleInstallSnapshot m) := by
    rw [handleInstallSnapshot_heard]
    split
    · exact Core.sameReads_send _ (by simp) (by simp)
    · refine Core.SameReads.trans ?_ (Core.sameReads_send _ (by simp) (by simp))
      exact { commit := fun hl => absurd hl hcrole }
  exact .of_not_leader (Beats.Moves.refl ..) hβ (hnode.same hsame (Nat.zero_le _))
    (by rw [hsame.role]; exact hcrole) (by rw [hsame.confirmedReads, hready]; exact hnone)

theorem majority_of_echoes {f : (Sigma fun _ : NodeId => Nat) → Bool} {acked : UnorderedMap Nat}
    (hp : p ∈ M.peers) (hmem : ∀ a ∈ acked.entries, f a = true → a.1 ∈ M.peers ∧ a.1 ≠ p)
    (hlen : M.members.card / 2 + 1 ≤ 1 + acked.entries.countP f) :
    ∃ Q, Majority M.members Q ∧ ∀ v ∈ Q, v = p ∨ ∃ a ∈ acked.entries, f a = true ∧ a.1 = v := by
  have hsub : ((acked.entries.filter f).map Sigma.fst).Sublist acked.keys :=
    List.filter_sublist.map Sigma.fst
  refine ⟨(p :: (acked.entries.filter f).map Sigma.fst).toFinset, majority_of_nodup ?_ ?_ ?_, ?_⟩
  · refine List.nodup_cons.mpr ⟨fun hin => ?_, acked.keys_nodup.sublist hsub⟩
    obtain ⟨a, ha, hf, heq⟩ := mem_filter_keys hin
    exact (hmem a ha hf).2 heq
  · intro v hv
    rcases mem_cons.mp hv with rfl | hv
    · exact hp
    · obtain ⟨a, ha, hf, rfl⟩ := mem_filter_keys hv
      exact (hmem a ha hf).1
  · rw [length_cons, length_map, ← List.countP_eq_length_filter]
    omega
  · intro v hv
    rcases mem_cons.mp (List.mem_toFinset.mp hv) with rfl | hv
    · exact .inl rfl
    · exact .inr (mem_filter_keys hv)

theorem BeatNode.confirmReads (h : BeatNode M β p r) (hβ : β.Bounded) (hp : p ∈ M.peers)
    (hl : r.role = .leader) (hnone : r.ready.confirmedReads = [])
    (hterm : r.hard.term = r₀.hard.term) (hreads : r.pendingReads = r₀.pendingReads)
    (hcommit : r₀.commit ≤ r.commit) : BeatOk M β p r₀ r.confirmReads := by
  refine ⟨β, Beats.Moves.refl .., hβ, { h with idle := fun hn => absurd hl hn }, ?_, ?_,
    fun _ _ => ⟨hterm, hcommit⟩⟩
  · intro pr hpr
    have hpr := (mem_filter.mp hpr).1
    rw [hreads] at hpr
    exact ⟨hterm, .inl hpr⟩
  · intro x hx
    unfold Core.confirmReads at hx
    dsimp only at hx
    rw [hnone, nil_append] at hx
    obtain ⟨pr, hpr, rfl⟩ := mem_map.mp hx
    obtain ⟨hpr, hcount⟩ := mem_filter.mp hpr
    replace hcount := of_decide_eq_true hcount
    rw [quorum_eq h.valid] at hcount
    obtain ⟨Q, hQ, hechoed⟩ := majority_of_echoes hp (fun a ha hf => by
      have hf := of_decide_eq_true hf
      refine ⟨(h.acked hl a ha).1, ?_⟩
      rw [← h.valid.1]
      exact hf.1) hcount
    rw [hreads] at hpr
    refine .inl ⟨pr, hpr, rfl, Q, hQ, fun q hq => ?_⟩
    rcases hechoed q hq with hself | ⟨a, ha, hf, rfl⟩
    · exact .inl hself
    · have hf := of_decide_eq_true hf
      rw [← hterm]
      exact .inr (hf.2.trans (h.acked hl a ha).2)

theorem UnorderedMap.getD_le {acked : UnorderedMap Nat} {k : NodeId} {n : Nat}
    (h : ∀ a ∈ acked.entries, a.1 = k → a.2 ≤ n) : acked.getD k 0 ≤ n := by
  unfold UnorderedMap.getD
  cases hk : acked.lookup k with
  | none => exact Nat.zero_le n
  | some v => exact h ⟨k, v⟩ (AList.mem_lookup_iff.mp hk) rfl

theorem BeatNode.handleAppendEntriesResp (h : BeatNode M β p r) (hβ : β.Bounded)
    (hp : p ∈ M.peers) (hm : BeatMsg β m) (hkind : m.kind = .appendEntriesResp)
    (hfrom : m.from_ ∈ M.peers) (hterm : m.term = r.hard.term)
    (hnone : r.ready.confirmedReads = []) : BeatOk M β p r (r.handleAppendEntriesResp m) := by
  unfold Core.handleAppendEntriesResp
  by_cases hl : r.role = .leader
  · rw [if_neg (not_not.mpr hl)]
    obtain ⟨c, hc⟩ : ∃ c : Core, c = { r with
        hbAcked := r.hbAcked.insert m.from_ (max (r.hbAcked.getD m.from_ 0) m.hbSeq) } := ⟨_, rfl⟩
    have hcl : c.role = .leader := by rw [hc]; exact hl
    have hnode : BeatNode M β p c := by
      rw [hc]
      refine { h with acked := fun _ a ha => ?_, idle := fun hn => absurd hl hn }
      rcases UnorderedMap.mem_insert_entries ha with rfl | ha
      · -- the echo is one the sender has really made
        refine ⟨hfrom, max_le ?_ ?_⟩
        · exact UnorderedMap.getD_le fun a ha heq => heq ▸ (h.acked hl a ha).2
        · have := hm.echoed hkind
          rw [hterm] at this
          exact this
      · exact h.acked hl a ha
    rw [← hc]
    have hpass : ∀ c' : Core, Core.SameReads 0 c c' → BeatOk M β p r c'.confirmReads := by
      intro c' hs
      refine (hnode.same hs (Nat.zero_le _)).confirmReads hβ hp (hs.role.trans hcl) ?_ ?_ ?_ ?_
      · rw [hs.confirmedReads, hc]
        exact hnone
      · rw [hs.term, hc]
      · rw [hs.pendingReads, hc]
      · have := hs.commit hcl
        rw [hc] at this
        exact this
    split
    · exact hpass _ (Core.sameReads_recordMatch 0 c m)
    · subst hc
      refine hpass _ (Core.SameReads.trans ?_ (Core.sameReads_sendAppend ?_ _))
      · exact {}
      · exact hl
  · rw [if_pos hl]
    exact .of_same h hβ (Core.SameReads.refl 0 r) hnone

theorem BeatNode.handleRequestVoteResp (h : BeatNode M β p r) (hβ : β.Bounded)
    (hnone : r.ready.confirmedReads = [])
    (hfresh : (r.handleRequestVoteResp m).role = .leader → r.role ≠ .leader →
      β.seq (r.handleRequestVoteResp m).hard.term = 0) :
    BeatOk M β p r (r.handleRequestVoteResp m) := by
  unfold Core.handleRequestVoteResp at hfresh ⊢
  by_cases hcand : r.role = .candidate
  · rw [if_neg (not_not.mpr hcand)] at hfresh ⊢
    dsimp only at hfresh ⊢
    have hnl : r.role ≠ .leader := by rw [hcand]; simp
    have hvote : Core.SameReads 0 r { r with votes := r.votes.insert m.from_ m.granted } := {}
    split
    · rename_i hquorum
      rw [if_pos hquorum] at hfresh
      refine .of_becomeLeader (h.same hvote (Nat.zero_le _)) hβ hnl hnone ?_ hnl
      have hzero := hfresh (becomeLeader_role _) hnl
      rw [becomeLeader_hard] at hzero
      exact hzero
    · exact .of_same h hβ hvote hnone
  · rw [if_pos hcand]
    exact .of_same h hβ (Core.SameReads.refl 0 r) hnone

/-- What `Step` does to heartbeat rounds and their echoes. -/
theorem BeatNode.step (h : BeatNode M β p r) (hβ : β.Bounded) (hp : p ∈ M.peers)
    (hm : BeatMsg β m) (hfrom : m.from_ ∈ M.peers)
    (hnoself : r.role = .leader → m.term = r.hard.term →
      m.kind ≠ .appendEntries ∧ m.kind ≠ .installSnapshot)
    (hnone : r.ready.confirmedReads = [])
    (hfresh : (r.step m).role = .leader → r.role ≠ .leader →
      β.seq (r.step m).hard.term = 0) : BeatOk M β p r (r.step m) := by
  by_cases hstale : m.term < r.hard.term
  · exact .of_same h hβ (Core.sameReads_stale r m hstale) hnone
  unfold Core.step at hfresh ⊢
  rw [if_neg hstale] at hfresh ⊢
  dsimp only at hfresh ⊢
  by_cases hnewer : r.hard.term < m.term
  · -- the node follows the newer term first; what a follower does answers no read
    rw [if_pos hnewer]
    generalize (if m.kind = .appendEntries ∨ m.kind = .installSnapshot then m.from_ else 0) = ldr
    have hnode := h.becomeFollower m.term ldr
    have hnone' := (r.becomeFollower_reads m.term ldr).2.2.1.trans hnone
    have hrole := (r.becomeFollower_frame m.term ldr).1
    have hterm := becomeFollower_term hnewer ldr
    generalize r.becomeFollower m.term ldr = c at hnode hnone' hrole hterm
    have hnl : c.role ≠ .leader := by rw [hrole]; simp
    have hquiet : ∀ c', Core.SameReads 0 c c' → BeatOk M β p r c' := fun c' hs =>
      .of_not_leader (Beats.Moves.refl ..) hβ (hnode.same hs (Nat.zero_le _))
        (by rw [hs.role]; exact hnl) (by rw [hs.confirmedReads]; exact hnone')
    cases hkind : m.kind with
    | requestVote => exact hquiet _ (Core.sameReads_handleRequestVote c m)
    | requestVoteResp =>
      unfold Core.handleRequestVoteResp
      rw [if_pos (by rw [hrole]; simp)]
      exact hquiet c (Core.SameReads.refl 0 c)
    | appendEntries => exact hnode.handleAppendEntries hnl hβ hm hkind hterm.symm hnone'
    | appendEntriesResp =>
      unfold Core.handleAppendEntriesResp
      rw [if_pos hnl]
      exact hquiet c (Core.SameReads.refl 0 c)
    | installSnapshot => exact hnode.handleInstallSnapshot hnl hβ hnone'
    | installSnapshotResp => exact hquiet _ (Core.sameReads_handleInstallSnapshotResp c m)
  · rw [if_neg hnewer] at hfresh ⊢
    have hterm : m.term = r.hard.term := by omega
    cases hkind : m.kind with
    | requestVote => exact .of_same h hβ (Core.sameReads_handleRequestVote r m) hnone
    | requestVoteResp =>
      rw [hkind] at hfresh
      exact h.handleRequestVoteResp hβ hnone hfresh
    | appendEntries =>
      have hnl : r.role ≠ .leader := fun hl => (hnoself hl hterm).1 hkind
      exact h.handleAppendEntries hnl hβ hm hkind hterm hnone
    | appendEntriesResp => exact h.handleAppendEntriesResp hβ hp hm hkind hfrom hterm hnone
    | installSnapshot =>
      have hnl : r.role ≠ .leader := fun hl => (hnoself hl hterm).2 hkind
      exact h.handleInstallSnapshot hnl hβ hnone
    | installSnapshotResp =>
      exact .of_same h hβ (Core.sameReads_handleInstallSnapshotResp r m) hnone

end

end Flotilla.Raft
