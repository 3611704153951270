/-
  Raft.Election — at most one leader in each term.

  The ghost state is a `Ballot`: whom every node voted for in every term, and
  who became the leader of every term.  A node's durable `voted_for` is its
  entry of the ballot, a granted response in flight is an entry of the ballot,
  and a candidate's `votes_` map counts entries of the ballot.  Two leaders of
  one term would need two majorities of one ballot.
-/
import Flotilla.Raft.Runs

namespace Flotilla.Raft

open Membership Core
open ReplicatedLog

/-! ## Ballots. -/

/-- Whom a node voted for in a term, and who led a term; 0 is nobody. -/
structure Ballot where
  vote : Nat → NodeId → NodeId := fun _ _ => 0
  ldr : Nat → NodeId := fun _ => 0

namespace Ballot

/-- Node `p` may cast votes that are still open and take over terms without a leader. -/
structure Moves (p : NodeId) (B B' : Ballot) : Prop where
  vote_keep : ∀ t v, B.vote t v ≠ 0 → B'.vote t v = B.vote t v
  vote_other : ∀ t v, v ≠ p → B'.vote t v = B.vote t v
  ldr_keep : ∀ t, B.ldr t ≠ 0 → B'.ldr t = B.ldr t
  ldr_other : ∀ t, B'.ldr t ≠ B.ldr t → B'.ldr t = p

theorem Moves.refl (p : NodeId) (B : Ballot) : Moves p B B :=
  ⟨fun _ _ _ => rfl, fun _ _ _ => rfl, fun _ _ => rfl, fun _ h => absurd rfl h⟩

variable {B : Ballot} {p : NodeId} {t : Nat}

theorem Moves.trans {B' B'' : Ballot} (h : Moves p B B') (h' : Moves p B' B'') :
    Moves p B B'' where
  vote_keep t v hv := by
    have hv' := h.vote_keep t v hv
    rw [h'.vote_keep t v (by rw [hv']; exact hv), hv']
  vote_other t v hv := (h'.vote_other t v hv).trans (h.vote_other t v hv)
  ldr_keep t ht := by
    have ht' := h.ldr_keep t ht
    rw [h'.ldr_keep t (by rw [ht']; exact ht), ht']
  ldr_other t ht := by
    by_cases heq : B''.ldr t = B'.ldr t
    · rw [heq] at ht ⊢
      exact h.ldr_other t ht
    · exact h'.ldr_other t heq

def cast (B : Ballot) (t : Nat) (p c : NodeId) : Ballot :=
  { B with vote := fun u v => if u = t ∧ v = p then c else B.vote u v }

def crown (B : Ballot) (t : Nat) (p : NodeId) : Ballot :=
  { B with ldr := Function.update B.ldr t p }

theorem cast_vote_self (B : Ballot) (t : Nat) (p c : NodeId) : (B.cast t p c).vote t p = c := by
  simp [cast]

theorem cast_vote_of_ne (B : Ballot) {u : Nat} {v : NodeId} (c : NodeId) (h : ¬ (u = t ∧ v = p)) :
    (B.cast t p c).vote u v = B.vote u v := if_neg h

theorem moves_cast {c : NodeId} (h : B.vote t p = 0) :
    Moves p B (B.cast t p c) where
  vote_keep u v hv := by
    apply cast_vote_of_ne
    intro hc
    rw [hc.1, hc.2] at hv
    exact hv h
  vote_other u v hv := cast_vote_of_ne B c (fun hc => hv hc.2)
  ldr_keep _ _ := rfl
  ldr_other _ h := absurd rfl h

theorem moves_crown (h : B.ldr t = 0) :
    Moves p B (B.crown t p) where
  vote_keep _ _ _ := rfl
  vote_other _ _ _ := rfl
  ldr_keep u hu := by
    have hne : u ≠ t := by
      intro heq
      rw [heq] at hu
      exact hu h
    simp [crown, hne]
  ldr_other u hu := by
    by_cases heq : u = t
    · subst heq
      simp [crown]
    · simp [crown, heq] at hu

/-- Every leader won a majority. -/
def Won (M : Membership) (B : Ballot) : Prop :=
  ∀ t, B.ldr t ≠ 0 → ∃ Q, Majority M.members Q ∧ ∀ v ∈ Q, B.vote t v = B.ldr t

theorem Won.cast {M : Membership} (h : Won M B) {c : NodeId} (hopen : B.vote t p = 0) :
    Won M (B.cast t p c) := by
  intro u hu
  obtain ⟨Q, hQ, hv⟩ := h u hu
  refine ⟨Q, hQ, fun v hvQ => ?_⟩
  have hvote := hv v hvQ
  have hne : B.vote u v ≠ 0 := by rw [hvote]; exact hu
  rw [(moves_cast hopen).vote_keep u v hne]
  exact hvote

theorem Won.crown {M : Membership} (h : Won M B) {Q : Finset NodeId} (hQ : Majority M.members Q)
    (hv : ∀ v ∈ Q, B.vote t v = p) :
    Won M (B.crown t p) := by
  intro u hu
  by_cases heq : u = t
  · subst heq
    refine ⟨Q, hQ, fun v hvQ => ?_⟩
    show B.vote u v = _
    rw [hv v hvQ]
    simp [Ballot.crown]
  · have hsame : (B.crown t p).ldr u = B.ldr u := by simp [Ballot.crown, heq]
    rw [hsame] at hu ⊢
    exact h u hu

end Ballot

/-! ## The invariant. -/

/-- What a message says about the ballot. -/
structure VoteMsg (M : Membership) (B : Ballot) (m : Message) : Prop where
  from_mem : m.from_ ∈ M.peers
  granted : m.kind = .requestVoteResp → m.granted = true →
    m.to_ ≠ 0 ∧ B.vote m.term m.from_ = m.to_

/-- What node `p` knows about the ballot. -/
structure VoteNode (M : Membership) (B : Ballot) (p : NodeId) (d : Storage) (r : Core) : Prop where
  mem : p ∈ M.peers
  valid : r.config.Valid M p
  hard : (if r.ready.hardStateChanged then r.ready.hardState else d.hard) = r.hard
  current : B.vote r.hard.term p = r.hard.votedFor
  future : ∀ t, r.hard.term < t → B.vote t p = 0
  votes : r.role = .candidate → ∀ v, ⟨v, true⟩ ∈ r.votes.entries →
    v ∈ M.peers ∧ B.vote r.hard.term v = p
  lead : r.role = .leader → B.ldr r.hard.term = p
  past : ∀ t, B.ldr t = p → t ≤ r.hard.term ∧ (t = r.hard.term → r.role ≠ .candidate)
  msgs : ∀ m ∈ r.ready.messages, VoteMsg M B m

theorem VoteMsg.mono {M : Membership} {B B' : Ballot} {p : NodeId} {m : Message}
    (hmoves : B.Moves p B') (h : VoteMsg M B m) : VoteMsg M B' m where
  from_mem := h.from_mem
  granted hk hg := by
    obtain ⟨hto, hvote⟩ := h.granted hk hg
    refine ⟨hto, ?_⟩
    rw [hmoves.vote_keep _ _ (by rw [hvote]; exact hto)]
    exact hvote

theorem VoteNode.frame {M : Membership} {B B' : Ballot} {p q : NodeId} {d : Storage} {r : Core}
    (hmoves : B.Moves p B') (hq : q ≠ p) (h : VoteNode M B q d r) : VoteNode M B' q d r where
  mem := h.mem
  valid := h.valid
  hard := h.hard
  current := by rw [hmoves.vote_other _ _ hq]; exact h.current
  future t ht := by rw [hmoves.vote_other _ _ hq]; exact h.future t ht
  votes hc v hv := by
    obtain ⟨hmem, hvote⟩ := h.votes hc v hv
    have hne : B.vote r.hard.term v ≠ 0 := by rw [hvote]; exact ne_zero h.mem
    exact ⟨hmem, by rw [hmoves.vote_keep _ _ hne]; exact hvote⟩
  lead hl := by
    have hldr := h.lead hl
    rw [hmoves.ldr_keep _ (by rw [hldr]; exact ne_zero h.mem)]
    exact hldr
  past t ht := by
    by_cases hsame : B'.ldr t = B.ldr t
    · exact h.past t (hsame.symm.trans ht)
    · exact absurd (ht.symm.trans (hmoves.ldr_other t hsame)) hq
  msgs m hm := (h.msgs m hm).mono hmoves

def electionInvariant (M : Membership) : LocalInvariant Ballot where
  Moves := Ballot.Moves
  Global := Ballot.Won M
  NodeOk := VoteNode M
  MsgOk := VoteMsg M
  node_frame := VoteNode.frame
  msg_frame := VoteMsg.mono
  drained h := { h with
    hard := (Storage.persist_hard _ _).trans h.hard
    msgs := List.forall_mem_nil _ }
  pending h := h.msgs

/-! ## The operations that touch elections. -/

section

variable {M : Membership} {B : Ballot} {p : NodeId} {d : Storage} {r r' : Core} {m : Message}

theorem VoteNode.same (h : VoteNode M B p d r) (hs : Core.SameElection r r') :
    VoteNode M B p d r' where
  mem := h.mem
  valid := by rw [hs.config]; exact h.valid
  hard := by rw [hs.changed, hs.hardState, hs.hard]; exact h.hard
  current := by rw [hs.hard]; exact h.current
  future := by rw [hs.hard]; exact h.future
  votes := by rw [hs.role, hs.votes, hs.hard]; exact h.votes
  lead := by rw [hs.role, hs.hard]; exact h.lead
  past := by rw [hs.role, hs.hard]; exact h.past
  msgs m hm := by
    rcases hs.messages m hm with hm | ⟨hfrom, _, hkind⟩
    · exact h.msgs m hm
    · refine ⟨?_, fun hk => absurd hk hkind⟩
      rw [hfrom, h.valid.1]
      exact h.mem

theorem VoteNode.push (h : VoteNode M B p d r) {ms : List Message}
    (hms : ∀ m ∈ ms, VoteMsg M B m) : VoteNode M B p d (r.push ms) :=
  { h with
    msgs := fun m hm => (mem_append.mp hm).elim (h.msgs m) (hms m) }

theorem VoteNode.becomeFollower (h : VoteNode M B p d r) {t : Nat} (ht : r.hard.term ≤ t)
    (leader : NodeId) : VoteNode M B p d (r.becomeFollower t leader) := by
  unfold Core.becomeFollower
  by_cases hlt : r.hard.term < t
  · rw [if_pos hlt]
    exact { h with
      hard := by simp [resetElectionTimer, Core.persistHardState]
      current := h.future t hlt
      future := fun u hu => h.future u (lt_trans hlt hu)
      votes := nofun
      lead := nofun
      past := fun u hu => ⟨(h.past u hu).1.trans ht, fun _ hc => absurd hc (by
        simp [resetElectionTimer])⟩ }
  · rw [if_neg hlt]
    exact { h with
      votes := nofun
      lead := nofun
      past := fun u hu => ⟨(h.past u hu).1, fun _ hc => absurd hc (by
        simp [resetElectionTimer])⟩ }

/-- What an operation of `p` owes: a later ballot in which everything `p` knows holds. -/
def VoteOk (M : Membership) (B : Ballot) (p : NodeId) (d : Storage) (r : Core) : Prop :=
  ∃ B', B.Moves p B' ∧ B'.Won M ∧ VoteNode M B' p d r

theorem VoteNode.ok (h : VoteNode M B p d r) (hwon : B.Won M) : VoteOk M B p d r :=
  ⟨B, Ballot.Moves.refl p B, hwon, h⟩

theorem VoteOk.same (h : VoteOk M B p d r) (hs : Core.SameElection r r') : VoteOk M B p d r' := by
  obtain ⟨B', hmoves, hwon, hnode⟩ := h
  exact ⟨B', hmoves, hwon, hnode.same hs⟩

theorem VoteOk.after {B₀ : Ballot} (h : VoteOk M B p d r) (hmoves : B₀.Moves p B) :
    VoteOk M B₀ p d r := by
  obtain ⟨B', hmoves', hwon, hnode⟩ := h
  exact ⟨B', hmoves.trans hmoves', hwon, hnode⟩

section

variable (h : VoteNode M B p d r) (hwon : B.Won M) (hrole : r.role = .candidate) {Q : Finset NodeId}
  (hQ : Majority M.members Q) (hv : ∀ v ∈ Q, B.vote r.hard.term v = p)

include h hwon hrole hQ hv

theorem VoteNode.open_term : B.ldr r.hard.term = 0 := by
  by_contra hne
  -- the two majorities share a voter, so the leader is `p` itself
  obtain ⟨Q', hQ', hv'⟩ := hwon _ hne
  obtain ⟨v, hvQ, hvQ'⟩ := hQ.exists_common hQ'
  have hself : B.ldr r.hard.term = p := by rw [← hv' v hvQ', hv v hvQ]
  exact (h.past _ hself).2 rfl hrole

theorem VoteNode.becomeLeader : VoteOk M B p d r.becomeLeader := by
  have hopen := h.open_term hwon hrole hQ hv
  have hmoves := Ballot.moves_crown (p := p) hopen
  unfold Core.becomeLeader
  -- everything after the change of role is replication
  refine .same ?_ (sameElection_maybeAdvanceCommit _)
  refine .same ?_ (sameElection_broadcastAppend _)
  refine ⟨B.crown r.hard.term p, hmoves, hwon.crown hQ hv, ?_⟩
  exact { h with
    votes := nofun
    lead := fun _ => by simp [Core.appendLocal, Ballot.crown]
    past := fun u hu => by
      by_cases heq : u = r.hard.term
      · subst heq
        exact ⟨le_rfl, fun _ => by simp [Core.appendLocal]⟩
      · have hold : B.ldr u = p := by simpa [Ballot.crown, heq] using hu
        exact ⟨(h.past u hold).1, fun hc => absurd hc heq⟩
    msgs := fun m hm => (h.msgs m hm).mono hmoves }

end

theorem voteRequest_ok (h : VoteNode M B p d r) (peer : NodeId) :
    VoteMsg M B (r.voteRequest peer) := by
  refine ⟨?_, nofun⟩
  show r.config.id ∈ M.peers
  rw [h.valid.1]
  exact h.mem

theorem VoteNode.asCandidate (h : VoteNode M B p d r) :
    VoteNode M (B.cast (r.hard.term + 1) p p) p d r.asCandidate := by
  have hopen : B.vote (r.hard.term + 1) p = 0 := h.future _ (Nat.lt_succ_self _)
  have hmoves : B.Moves p (B.cast (r.hard.term + 1) p p) := Ballot.moves_cast hopen
  exact { h with
    hard := by simp [Core.asCandidate, resetElectionTimer, Core.persistHardState]
    current := by
      show (B.cast (r.hard.term + 1) p p).vote (r.hard.term + 1) p = r.config.id
      rw [Ballot.cast_vote_self, h.valid.1]
    future := fun u hu => by
      have hne : ¬ (u = r.hard.term + 1 ∧ p = p) := fun hc => absurd hu (by
        rw [hc.1]; exact lt_irrefl _)
      rw [Ballot.cast_vote_of_ne B p hne]
      exact h.future u (lt_trans (Nat.lt_succ_self _) hu)
    votes := fun _ v hv => by
      have hvp : v = r.config.id := congrArg Sigma.fst (mem_singleton.mp hv)
      rw [hvp, h.valid.1]
      exact ⟨h.mem, Ballot.cast_vote_self B _ _ _⟩
    lead := fun hl => absurd hl (by
      simp [Core.asCandidate, resetElectionTimer, Core.persistHardState])
    past := fun u hu => by
      have hle := (h.past u hu).1
      show u ≤ r.hard.term + 1 ∧ (u = r.hard.term + 1 → _)
      exact ⟨by omega, fun hc => absurd hc (by omega)⟩
    msgs := fun m hm => (h.msgs m hm).mono hmoves }

theorem VoteNode.startElection (h : VoteNode M B p d r) (hwon : B.Won M) :
    VoteOk M B p d r.startElection := by
  -- the vote of the new term is still open
  have hopen : B.vote (r.hard.term + 1) p = 0 := h.future _ (Nat.lt_succ_self _)
  have hwon' : (B.cast (r.hard.term + 1) p p).Won M := hwon.cast hopen
  have hnode := h.asCandidate
  rw [startElection_eq]
  refine .after ?_ (Ballot.moves_cast (c := p) hopen)
  split
  · -- a single vote is already a quorum
    rename_i hq
    rw [quorum_eq hnode.valid] at hq
    have hQ : Majority M.members [p].toFinset :=
      majority_of_nodup (List.nodup_singleton p) (by simpa using h.mem) hq
    refine hnode.becomeLeader hwon' rfl hQ (fun v hv => ?_)
    have hvp : v = p := by simpa using hv
    rw [hvp]
    exact Ballot.cast_vote_self B _ _ _
  · refine (hnode.push ?_).ok hwon'
    intro m hm
    obtain ⟨peer, _, rfl⟩ := mem_map.mp hm
    exact voteRequest_ok hnode peer

theorem VoteNode.tick (h : VoteNode M B p d r) (hwon : B.Won M) : VoteOk M B p d r.tick := by
  unfold Core.tick
  split
  · dsimp only
    split
    · refine .same ?_ (sameElection_broadcastAppend _)
      exact VoteNode.ok { h with } hwon
    · exact VoteNode.ok { h with } hwon
  · dsimp only
    split
    · exact VoteNode.startElection { h with } hwon
    · exact VoteNode.ok { h with } hwon

/-! ## Messages. -/

section

variable (h : VoteNode M B p d r)

include h

theorem voteResponse_ok (hm : VoteMsg M B m) {granted : Bool}
    (hvote : granted = true → B.vote r.hard.term p = m.from_) :
    VoteNode M B p d (r.send { kind := .requestVoteResp, to_ := m.from_, granted := granted }) := by
  rw [send_eq]
  refine h.push ?_
  intro m' hm'
  rw [mem_singleton.mp hm']
  refine ⟨?_, fun _ hg => ⟨ne_zero hm.from_mem, ?_⟩⟩
  · show r.config.id ∈ M.peers
    rw [h.valid.1]
    exact h.mem
  · show B.vote r.hard.term r.config.id = m.from_
    rw [h.valid.1]
    exact hvote hg

theorem VoteNode.handleRequestVote (hwon : B.Won M)
    (hm : VoteMsg M B m) : VoteOk M B p d (r.handleRequestVote m) := by
  unfold Core.handleRequestVote
  dsimp only
  split
  · rename_i hgrant
    by_cases hne : r.hard.votedFor = m.from_
    · -- the same vote again
      rw [if_neg (fun hc => hc hne)]
      refine (voteResponse_ok ?_ hm ?_).ok hwon
      · exact { h with }
      · exact fun _ => h.current.trans hne
    · -- the vote was open: cast it
      have hzero : r.hard.votedFor = 0 := hgrant.1.resolve_right hne
      have hopen : B.vote r.hard.term p = 0 := h.current.trans hzero
      have hmoves : B.Moves p (B.cast r.hard.term p m.from_) := Ballot.moves_cast hopen
      rw [if_pos hne]
      refine ⟨B.cast r.hard.term p m.from_, hmoves, hwon.cast hopen, ?_⟩
      refine voteResponse_ok ?_ (hm.mono hmoves) (fun _ => Ballot.cast_vote_self B _ _ _)
      exact { h with
        hard := by simp [resetElectionTimer, Core.persistHardState]
        current := Ballot.cast_vote_self B _ _ _
        future := fun u hu => by
          have hne' : ¬ (u = r.hard.term ∧ p = p) := fun hc => absurd hu (by
            rw [hc.1]; exact lt_irrefl _)
          rw [Ballot.cast_vote_of_ne B _ hne']
          exact h.future u hu
        votes := fun hc v hv => by
          obtain ⟨hmem, hvote⟩ := h.votes hc v hv
          have hkeep : B.vote r.hard.term v ≠ 0 := by
            rw [hvote]; exact ne_zero h.mem
          exact ⟨hmem, (hmoves.vote_keep _ _ hkeep).trans hvote⟩
        msgs := fun m' hm' => (h.msgs m' hm').mono hmoves }
  · exact (voteResponse_ok h hm (fun hc => absurd hc (by simp))).ok hwon

theorem VoteNode.handleRequestVoteResp (hwon : B.Won M)
    (hm : VoteMsg M B m) (hkind : m.kind = .requestVoteResp) (hto : m.to_ = p)
    (hterm : m.term = r.hard.term) : VoteOk M B p d (r.handleRequestVoteResp m) := by
  unfold Core.handleRequestVoteResp
  split
  · exact h.ok hwon
  · rename_i hrole
    have hcand : r.role = .candidate := not_not.mp hrole
    obtain ⟨c, hc⟩ : ∃ c : Core, c = { r with votes := r.votes.insert m.from_ m.granted } := ⟨_, rfl⟩
    show VoteOk M B p d (let r := { r with votes := r.votes.insert m.from_ m.granted }
      if r.quorum ≤ r.votes.entries.countP (fun v => v.2) then r.becomeLeader else r)
    rw [← hc]
    have hnode : VoteNode M B p d c := by
      rw [hc]
      refine { h with votes := fun _ v hv => ?_ }
      -- the new entry is the answer, the others were counted before
      rcases UnorderedMap.mem_insert_entries hv with heq | hold
      · have hfrom : v = m.from_ := congrArg Sigma.fst heq
        have hgr : true = m.granted := by
          simp only [Sigma.mk.injEq] at heq
          exact eq_of_heq heq.2
        obtain ⟨_, hvote⟩ := hm.granted hkind hgr.symm
        rw [hto, hterm] at hvote
        rw [hfrom]
        exact ⟨hm.from_mem, hvote⟩
      · exact h.votes hcand v hold
    have hcrole : c.role = .candidate := by rw [hc]; exact hcand
    dsimp only
    split
    · rename_i hq
      rw [quorum_eq hnode.valid] at hq
      have hyes : ∀ a ∈ c.votes.entries, a.2 = true → a.1 ∈ M.peers ∧ B.vote c.hard.term a.1 = p := by
        intro a ha htrue
        obtain ⟨v, b⟩ := a
        replace htrue : b = true := htrue
        subst htrue
        exact hnode.votes hcrole v ha
      obtain ⟨Q, hQ, hQv⟩ := majority_of_entries (fun a ha hf => (hyes a ha hf).1) hq
      refine hnode.becomeLeader hwon hcrole hQ (fun v hv => ?_)
      obtain ⟨a, ha, hf, rfl⟩ := hQv v hv
      exact (hyes a ha hf).2
    · exact hnode.ok hwon

theorem VoteNode.heard (m : Message) : VoteNode M B p d (r.heard m) := by
  unfold Core.heard
  split
  · exact { h.becomeFollower le_rfl m.from_ with }
  · exact { h with }

theorem VoteNode.handleAppendEntries (m : Message) :
    VoteNode M B p d (r.handleAppendEntries m) := by
  have hstart := h.heard m
  rw [handleAppendEntries_heard]
  generalize r.heard m = c at hstart ⊢
  split
  · split
    · exact hstart.same (sameElection_send c (by simp))
    · exact hstart.same (sameElection_acceptEntries c m _ _ _ _ (by simp))
  · exact hstart.same (sameElection_acceptEntries c m _ _ _ _ (by simp))

theorem VoteNode.handleInstallSnapshot (m : Message) :
    VoteNode M B p d (r.handleInstallSnapshot m) := by
  have hstart := h.heard m
  rw [handleInstallSnapshot_heard]
  generalize r.heard m = c at hstart ⊢
  split
  · exact hstart.same (sameElection_send c (by simp))
  · refine VoteNode.same ?_ (sameElection_send _ (by simp))
    exact { hstart with }

/-- `Step` keeps the node's votes as the ballot has them. -/
theorem VoteNode.step (hwon : B.Won M) (hm : VoteMsg M B m)
    (hto : m.to_ = p) : VoteOk M B p d (r.step m) := by
  unfold Core.step
  split
  · -- a stale sender: at most a refusal is queued
    split
    · exact (voteResponse_ok h hm (fun hc => absurd hc (by simp))).ok hwon
    · exact (h.same (sameElection_send r (by simp))).ok hwon
    · exact (h.same (sameElection_send r (by simp))).ok hwon
    · exact h.ok hwon
  · rename_i hstale
    generalize hc : (if r.hard.term < m.term then _ else r : Core) = c
    have hnode : VoteNode M B p d c := by
      rw [← hc]
      split
      · rename_i hlt
        exact h.becomeFollower hlt.le _
      · exact h
    have hterm : m.term = c.hard.term := by
      rw [← hc]
      split
      · rename_i hlt
        simp [Core.becomeFollower, hlt, resetElectionTimer, Core.persistHardState]
      · omega
    cases hkind : m.kind with
    | requestVote => exact hnode.handleRequestVote hwon hm
    | requestVoteResp => exact hnode.handleRequestVoteResp hwon hm hkind hto hterm
    | appendEntries => exact (hnode.handleAppendEntries m).ok hwon
    | appendEntriesResp =>
      exact (hnode.same (sameElection_handleAppendEntriesResp c m)).ok hwon
    | installSnapshot => exact (hnode.handleInstallSnapshot m).ok hwon
    | installSnapshotResp =>
      exact (hnode.same (sameElection_handleInstallSnapshotResp c m)).ok hwon

end

/-! ## Runs. -/

variable {s : Cluster}

theorem VoteNode.acts {e : Event} (hwon : B.Won M) (hmsg : ∀ m ∈ s.net, VoteMsg M B m)
    (h : VoteNode M B p (s.nodes p).storage (s.nodes p).raft) (hact : s.Acts e p r') :
    VoteOk M B p (s.nodes p).storage r' := by
  cases hact with
  | tick => exact h.tick hwon
  | deliver k m hm => exact h.step hwon (hmsg m (mem_of_getElem? hm)) rfl
  | propose _ command r' hr => exact (h.same (sameElection_propose hr)).ok hwon
  | readIndex _ ctx r' _ hr => exact (h.same (sameElection_startReadIndex hr)).ok hwon

theorem VoteNode.compact (h : VoteNode M B p d r) (applied : Nat) (data : Bytes) (saved : Bool) :
    VoteNode M B p (Cluster.compactNode ⟨d, r⟩ applied data saved).storage
      (Cluster.compactNode ⟨d, r⟩ applied data saved).raft := by
  have hcore : VoteNode M B p d (r.compactTo applied data) :=
    h.same (sameElection_compactTo r applied data)
  cases saved with
  | false => exact hcore
  | true => exact { hcore with }

theorem VoteNode.restart (h : VoteNode M B p d r) (hrest : r.ready = {}) {cfg : Config}
    (hcfg : cfg.Valid M p) :
    VoteNode M B p (Cluster.restartNode ⟨d, r⟩ cfg).storage (Cluster.restartNode ⟨d, r⟩ cfg).raft := by
  -- the new incarnation reads the hard state that was durable before any message left
  have hd : d.hard = r.hard := by
    have := h.hard
    rw [hrest] at this
    exact this
  have hhard : (Cluster.restartNode ⟨d, r⟩ cfg).raft.hard = r.hard := hd
  exact {
    mem := h.mem
    valid := hcfg
    hard := rfl
    current := by rw [hhard]; exact h.current
    future := by rw [hhard]; exact h.future
    votes := fun hc => absurd hc (by simp [Cluster.restartNode, Core.start, resetElectionTimer])
    lead := fun hl => absurd hl (by simp [Cluster.restartNode, Core.start, resetElectionTimer])
    past := fun t ht => by
      rw [hhard]
      exact ⟨(h.past t ht).1, fun _ hc => absurd hc (by
        simp [Cluster.restartNode, Core.start, resetElectionTimer])⟩
    msgs := nofun }

/-- An event keeps the election invariant, with what it adds to the ballot. -/
theorem election_step {s' : Cluster} {e : Event} {o : Output}
    (h : (electionInvariant M).Holds M B s) (hstep : s.step M e = some (s', o)) :
    ∃ B' n, B.Moves n B' ∧ (electionInvariant M).Holds M B' s' := by
  obtain ⟨n, hn, hdid⟩ := Cluster.step_cases hstep
  have hnode : VoteNode M B n (s.nodes n).storage (s.nodes n).raft := h.node n hn
  cases hdid with
  | op r hact =>
    obtain ⟨B', hmoves, hwon, hnode'⟩ := hnode.acts h.global h.msg hact
    exact ⟨B', n, hmoves, h.drain hmoves hwon hnode'⟩
  | compact applied data saved he hle =>
    refine ⟨B, n, Ballot.Moves.refl n B, h.setNode ?_ (hnode.compact applied data saved)⟩
    rw [Cluster.compactNode_ready]
    exact h.rest n hn
  | restart cfg he hcfg =>
    refine ⟨B, n, Ballot.Moves.refl n B, h.setNode rfl ?_⟩
    exact hnode.restart (h.rest n hn) hcfg

theorem election_boot {cfg : NodeId → Config} (hcfg : ∀ n ∈ M.peers, (cfg n).Valid M n) :
    (electionInvariant M).Holds M {} (boot cfg) where
  global := fun _ ht => absurd rfl ht
  node p hp := {
    mem := hp
    valid := hcfg p hp
    hard := rfl
    current := rfl
    future := fun _ _ => rfl
    votes := nofun
    lead := nofun
    past := fun _ ht => absurd ht.symm (ne_zero hp)
    msgs := nofun }
  rest _ _ := rfl
  msg _ hm := absurd hm not_mem_nil

/-- A term that has a leader keeps it for the whole run. -/
theorem election_run {s' : Cluster} {es : List Event} {os : List Output}
    (h : (electionInvariant M).Holds M B s) (hrun : s.run M es = some (s', os)) :
    ∃ B', (∀ t, B.ldr t ≠ 0 → B'.ldr t = B.ldr t) ∧ (electionInvariant M).Holds M B' s' := by
  induction es generalizing s B os with
  | nil =>
    obtain ⟨rfl, _⟩ := hrun
    exact ⟨B, fun _ _ => rfl, h⟩
  | cons e es ih =>
    obtain ⟨s₁, o, os', hstep, hrest, _⟩ := Cluster.run_cons hrun
    obtain ⟨B₁, n, hmoves, h₁⟩ := election_step h hstep
    obtain ⟨B', hkeep, h'⟩ := ih h₁ hrest
    refine ⟨B', fun t ht => ?_, h'⟩
    have h₁t := hmoves.ldr_keep t ht
    rw [hkeep t (by rw [h₁t]; exact ht), h₁t]

end

/-- **Election safety**: if `p` leads term `T` at some point of a run and `q` leads
term `T` at the same or a later point, then `p = q`. -/
theorem election_safety {M : Membership} {cfg : NodeId → Config}
    (hcfg : ∀ n ∈ M.peers, (cfg n).Valid M n) {es₁ es₂ : List Event} {s₁ s₂ : Cluster}
    {os₁ os₂ : List Output} (h₁ : (boot cfg).run M es₁ = some (s₁, os₁))
    (h₂ : s₁.run M es₂ = some (s₂, os₂)) {p q : NodeId} (hp : p ∈ M.peers) (hq : q ∈ M.peers)
    (hlp : (s₁.nodes p).raft.role = .leader) (hlq : (s₂.nodes q).raft.role = .leader)
    (hterm : (s₁.nodes p).raft.hard.term = (s₂.nodes q).raft.hard.term) : p = q := by
  obtain ⟨B₁, _, hinv₁⟩ := election_run (election_boot hcfg) h₁
  obtain ⟨B₂, hkeep, hinv₂⟩ := election_run hinv₁ h₂
  have hldr₁ : B₁.ldr (s₁.nodes p).raft.hard.term = p := (hinv₁.node p hp).lead hlp
  have hldr₂ : B₂.ldr (s₂.nodes q).raft.hard.term = q := (hinv₂.node q hq).lead hlq
  have hne : B₁.ldr (s₁.nodes p).raft.hard.term ≠ 0 := by
    rw [hldr₁]; exact ne_zero hp
  rw [← hterm, hkeep _ hne, hldr₁] at hldr₂
  exact hldr₂

/-- Node 1 wins term 1 and still leads it after a further append. -/
theorem election_safety_first_term : ∃ s₁ os₁ s₂ os₂,
    (boot (eagerConfig 128)).run threeNodes electOne = some (s₁, os₁) ∧
    s₁.run threeNodes [.deliver 3, .tick 1] = some (s₂, os₂) ∧
    (s₁.nodes 1).raft.role = .leader ∧ (s₂.nodes 1).raft.role = .leader ∧
    (s₁.nodes 1).raft.hard.term = (s₂.nodes 1).raft.hard.term ∧
    ∀ q ∈ threeNodes.peers, (s₂.nodes q).raft.role = .leader →
      (s₁.nodes 1).raft.hard.term = (s₂.nodes q).raft.hard.term → 1 = q := by
  obtain ⟨⟨s₁, os₁⟩, h₁, hlead, ⟨s₂, os₂⟩, h₂, hlead₂, hterm₂⟩ : ∃ x,
      (boot (eagerConfig 128)).run threeNodes electOne = some x ∧
        (x.1.nodes 1).raft.role = .leader ∧
        ∃ y, x.1.run threeNodes [.deliver 3, .tick 1] = some y ∧
          (y.1.nodes 1).raft.role = .leader ∧
          (x.1.nodes 1).raft.hard.term = (y.1.nodes 1).raft.hard.term := by decide +kernel
  refine ⟨s₁, os₁, s₂, os₂, h₁, h₂, hlead, hlead₂, hterm₂, fun q hq hlq hterm => ?_⟩
  exact election_safety (fun n _ => eagerConfig_valid 128 n) h₁ h₂ (by decide) hq hlead hlq hterm

end Flotilla.Raft
