/-
  Raft.Simulation — every operation of the core simulates moves of the
  replicated log.

  Elections, messages, compaction and restarts, one lemma per operation: each
  takes `LogNode` through the operation and the ghost moves it stands for.
-/
import Flotilla.Raft.Election
import Flotilla.Raft.Followers

namespace Flotilla.Raft

open Core Storage
open ReplicatedLog

/-! ## The remaining operations of the core. -/

namespace Core

theorem becomeLeader_same (r : Core) : SameElection r.asLeader.withNoop r.becomeLeader := by
  rw [becomeLeader_eq]
  exact (sameElection_broadcastAppend _).trans (sameElection_maybeAdvanceCommit _)

theorem becomeLeader_role (r : Core) : r.becomeLeader.role = .leader := r.becomeLeader_same.role

theorem becomeLeader_hard (r : Core) : r.becomeLeader.hard = r.hard := r.becomeLeader_same.hard

theorem becomeFollower_frame (r : Core) (t : Nat) (leader : NodeId) :
    (r.becomeFollower t leader).role = .follower ∧ (r.becomeFollower t leader).log = r.log ∧
      (r.becomeFollower t leader).base = r.base ∧ (r.becomeFollower t leader).commit = r.commit ∧
      (r.becomeFollower t leader).ready.truncateFrom = r.ready.truncateFrom := by
  unfold becomeFollower
  by_cases hlt : r.hard.term < t
  · rw [if_pos hlt]
    exact ⟨rfl, rfl, rfl, rfl, rfl⟩
  · rw [if_neg hlt]
    exact ⟨rfl, rfl, rfl, rfl, rfl⟩

theorem becomeFollower_term {r : Core} {t : Nat} (h : r.hard.term < t) (leader : NodeId) :
    (r.becomeFollower t leader).hard.term = t := by
  unfold becomeFollower
  rw [if_pos h]
  rfl

end Core

theorem CommitCovered.congr {r c : Core} {m : Message} (hbase : c.base = r.base)
    (hlog : c.log = r.log) (hcommit : c.commit = r.commit) (h : CommitCovered r m) :
    CommitCovered c m := by
  unfold CommitCovered lastIndex termAt lastIndex entryAt at *
  rw [hbase, hlog, hcommit]
  exact h

theorem SnapshotFresh.congr {r c : Core} {m : Message} (hbase : c.base = r.base)
    (hlog : c.log = r.log) (hcommit : c.commit = r.commit) (h : SnapshotFresh r m) :
    SnapshotFresh c m := by
  unfold SnapshotFresh lastIndex termAt lastIndex entryAt at *
  rw [hbase, hlog, hcommit]
  exact h

section

variable {ρ : Regime} {M : Membership} {ldr : Nat → NodeId} {γ γ' : Ghost} {p q : NodeId}
  {d : Storage} {r r' : Core} {m : Message}

/-- What a node that wins an election must know: it is the leader on the ballot,
and its term had none before. -/
structure Wins (ldr : Nat → NodeId) (γ : Ghost) (p : NodeId) (r r' : Core) : Prop where
  is_ldr : r'.role = .leader → ldr r'.hard.term = p
  fresh : r'.role = .leader → r.role ≠ .leader → ¬ γ.hist.led r'.hard.term

section

variable (hG : γ.Global M ldr) (h : LogNode ρ M ldr γ p d r)

include hG h

theorem LogNode.startElection (hrole : r.role ≠ .leader) (hwins : Wins ldr γ p r r.startElection)
    (htf : r.ready.truncateFrom = 0) : LogOk ρ M ldr γ p d r.commit r.startElection := by
  have hmoves : γ.Moves ldr p (γ.campaign p) := Ghost.moves_campaign hG
  have hG' : (γ.campaign p).Global M ldr := Ghost.global_campaign hG
  have hnode := h.asCandidate hG
  rw [startElection_eq] at hwins ⊢
  split at hwins
  · -- its own vote is a quorum
    rename_i hq
    rw [if_pos hq]
    have hlr := r.asCandidate.becomeLeader_role
    have hterm : r.asCandidate.becomeLeader.hard.term = r.hard.term + 1 := by
      rw [Core.becomeLeader_hard]
      rfl
    have hopen : ¬ (γ.campaign p).hist.led r.asCandidate.hard.term := by
      intro hled
      have hold := hwins.fresh hlr hrole
      rw [hterm] at hold
      apply hold
      have hsame : (γ.campaign p).hist.led (r.hard.term + 1) = γ.hist.led (r.hard.term + 1) := by
        unfold Ghost.campaign Ghost.vote
        split <;> rfl
      rw [← hsame]
      exact hled
    have hldr : ldr r.asCandidate.hard.term = p := by
      have := hwins.is_ldr hlr
      rw [Core.becomeLeader_hard] at this
      exact this
    rw [quorum_eq hnode.valid] at hq
    have hQ : Majority M.members [p].toFinset :=
      majority_of_nodup (List.nodup_singleton p) (by simpa using h.mem) hq
    refine .after hmoves (hnode.becomeLeader hG' rfl hopen hldr hQ ?_ rfl htf)
    intro v hv
    have hvp : v = r.config.id := by rw [h.valid.1]; simpa using hv
    rw [hvp]
    exact mem_singleton.mpr rfl
  · rename_i hq
    rw [if_neg hq]
    refine .after hmoves (LogNode.ok (hnode.push ?_) hG' rfl htf)
    intro m hm
    obtain ⟨peer, hpeer, rfl⟩ := mem_map.mp hm
    exact voteRequest_logMsg hnode rfl (of_decide_eq_true (mem_filter.mp hpeer).2)

theorem LogNode.tick (hwins : Wins ldr γ p r r.tick) (htf : r.ready.truncateFrom = 0) :
    LogOk ρ M ldr γ p d r.commit r.tick := by
  unfold Core.tick at hwins ⊢
  split at hwins
  · rename_i hl
    rw [if_pos hl]
    dsimp only
    split
    · refine LogNode.ok (.broadcastAppend ?_ ?_) hG ?_ ?_
      · exact h.same {}
      · exact hl
      · rw [broadcastAppend_eq]
        rfl
      · rw [broadcastAppend_eq]
        exact htf
    · refine LogNode.ok ?_ hG rfl htf
      exact h.same {}
  · rename_i hnl
    rw [if_neg hnl]
    dsimp only at hwins ⊢
    split
    · rename_i hdue
      rw [if_pos hdue] at hwins
      refine LogNode.startElection (r := { r with electionElapsed := r.electionElapsed + 1 })
        hG ?_ hnl ⟨hwins.is_ldr, hwins.fresh⟩ htf
      exact h.same {}
    · refine LogNode.ok ?_ hG rfl htf
      exact h.same {}

theorem LogNode.handleRequestVoteResp
    (hv : r.role = .candidate → ∀ v, ⟨v, true⟩ ∈ r.votes.entries → v ∈ M.peers)
    (hm : LogMsg ρ M ldr γ m) (hkind : m.kind = .requestVoteResp) (hto : m.to_ = p)
    (hterm : m.term = r.hard.term)
    (hwins : r.role = .candidate → Wins ldr γ p r (r.handleRequestVoteResp m))
    (htf : r.ready.truncateFrom = 0) :
    LogOk ρ M ldr γ p d r.commit (r.handleRequestVoteResp m) := by
  by_cases hrole : r.role = .candidate
  · have hwins' := hwins hrole
    have hnode := h.recordVote hm hkind hto hterm
    obtain ⟨c, hc⟩ : ∃ c : Core, c = { r with votes := r.votes.insert m.from_ m.granted } :=
      ⟨_, rfl⟩
    have heq : r.handleRequestVoteResp m =
        if c.quorum ≤ c.votes.entries.countP (fun v => v.2) then c.becomeLeader else c := by
      unfold Core.handleRequestVoteResp
      rw [if_neg (fun hne => hne hrole), hc]
    have hcommit : c.commit = r.commit := by rw [hc]
    have htfc : c.ready.truncateFrom = 0 := by rw [hc]; exact htf
    have hcrole : c.role = .candidate := by rw [hc]; exact hrole
    have hcvotes : c.votes = r.votes.insert m.from_ m.granted := by rw [hc]
    rw [← hc] at hnode
    rw [heq] at hwins' ⊢
    split at hwins'
    · rename_i hq
      rw [if_pos hq]
      rw [quorum_eq hnode.valid] at hq
      have hyes : ∀ a ∈ c.votes.entries, a.2 = true → ⟨a.1, true⟩ ∈ c.votes.entries := by
        intro a ha htrue
        obtain ⟨v, b⟩ := a
        replace htrue : b = true := htrue
        subst htrue
        exact ha
      have hmem : ∀ a ∈ c.votes.entries, a.2 = true → a.1 ∈ M.peers := by
        intro a ha htrue
        rw [hcvotes] at ha
        rcases UnorderedMap.mem_insert_entries ha with heq | hold
        · rw [heq]
          exact hm.from_mem
        · obtain ⟨v, b⟩ := a
          replace htrue : b = true := htrue
          subst htrue
          exact hv hrole v hold
      obtain ⟨Q, hQ, hQv⟩ := majority_of_entries hmem hq
      have hlr := c.becomeLeader_role
      have hopen : ¬ γ.hist.led c.hard.term := by
        have := hwins'.fresh hlr (by rw [hrole]; simp)
        rw [Core.becomeLeader_hard] at this
        exact this
      have hldr : ldr c.hard.term = p := by
        have := hwins'.is_ldr hlr
        rw [Core.becomeLeader_hard] at this
        exact this
      refine hnode.becomeLeader hG hcrole hopen hldr hQ ?_ hcommit htfc
      intro v hvQ
      obtain ⟨a, ha, htrue, rfl⟩ := hQv v hvQ
      exact hyes a ha htrue
    · rename_i hq
      rw [if_neg hq]
      exact hnode.ok hG hcommit htfc
  · unfold Core.handleRequestVoteResp
    rw [if_pos hrole]
    exact h.ok hG rfl htf

end

/-! ## Delivery. -/

/-- The two conditions, for a message that is not stale. -/
def DeliveryGuard (r : Core) (m : Message) : Prop :=
  r.hard.term ≤ m.term →
    (m.kind = .appendEntries → CommitCovered r m) ∧
    (m.kind = .installSnapshot → SnapshotFresh r m)

instance (r : Core) (m : Message) : Decidable (DeliveryGuard r m) :=
  inferInstanceAs (Decidable (_ → _))

/-- `Step` is a move of the replicated log, or none. -/
theorem LogNode.step (hG : γ.Global M ldr) (h : LogNode ρ M ldr γ p d r)
    (hv : r.role = .candidate → ∀ v, ⟨v, true⟩ ∈ r.votes.entries → v ∈ M.peers)
    (hm : LogMsg ρ M ldr γ m) (hto : m.to_ = p) (hwins : Wins ldr γ p r (r.step m))
    (hguard : ρ = .guarded → DeliveryGuard r m) (htf : r.ready.truncateFrom = 0) :
    LogOk ρ M ldr γ p d r.commit (r.step m) := by
  have hne : p ≠ m.from_ := by rw [← hto]; exact hm.from_ne.symm
  unfold Core.step at hwins ⊢
  split
  · -- a stale sender hears about the newer term
    split
    · exact (h.answer hne (.inl rfl) (fun hg => absurd hg (by simp))
        (fun hs => absurd hs (by simp))).ok hG rfl htf
    · exact (h.answer hne (.inr (.inl rfl)) (fun hg => absurd hg (by simp))
        (fun hs => absurd hs (by simp))).ok hG rfl htf
    · exact (h.answer hne (.inr (.inr rfl)) (fun hg => absurd hg (by simp))
        (fun hs => absurd hs (by simp))).ok hG rfl htf
    · exact h.ok hG rfl htf
  · rename_i hstale
    rw [if_neg hstale] at hwins
    have hge : r.hard.term ≤ m.term := not_lt.mp hstale
    dsimp only at hwins ⊢
    generalize hc : (if r.hard.term < m.term then _ else r : Core) = c at hwins ⊢
    -- the newer term makes a follower first; nothing else changes
    obtain ⟨γ₁, hmoves, hG₁, h₁, hterm, hbase, hlog, hcommit, htfc, hsame⟩ :
        ∃ γ₁, γ.Moves ldr p γ₁ ∧ γ₁.Global M ldr ∧ LogNode ρ M ldr γ₁ p d c ∧
          m.term = c.hard.term ∧ c.base = r.base ∧ c.log = r.log ∧ c.commit = r.commit ∧
          c.ready.truncateFrom = 0 ∧ (c.role ≠ .follower → c = r ∧ γ₁ = γ) := by
      by_cases hlt : r.hard.term < m.term
      · rw [if_pos hlt] at hc
        subst hc
        obtain ⟨hrole, hlog, hbase, hcommit, htfc⟩ := r.becomeFollower_frame m.term
          (if m.kind = .appendEntries ∨ m.kind = .installSnapshot then m.from_ else 0)
        have hle : γ.hist.term p ≤ m.term := by rw [h.term]; exact hge
        exact ⟨γ.raise p m.term, Ghost.moves_raise hle, Ghost.global_raise hG hle,
          h.becomeFollower hG hge _, (Core.becomeFollower_term hlt _).symm, hbase, hlog, hcommit,
          htfc.trans htf, fun hr => absurd hrole hr⟩
      · rw [if_neg hlt] at hc
        subst hc
        exact ⟨γ, .refl ldr p γ, hG, h, by omega, rfl, rfl, rfl, htf, fun _ => ⟨rfl, rfl⟩⟩
    have hm₁ := hm.mono hG hmoves
    refine .after hmoves ?_
    rw [← hcommit]
    cases hkind : m.kind with
    | requestVote =>
      obtain ⟨γ₂, hmoves₂, hG₂, h₂⟩ := h₁.handleRequestVote hG₁ hm₁ hto hkind hterm
      have hframe : (c.handleRequestVote m).commit = c.commit ∧
          (c.handleRequestVote m).ready.truncateFrom = c.ready.truncateFrom := by
        unfold Core.handleRequestVote
        dsimp only
        split
        · split <;> exact ⟨rfl, rfl⟩
        · exact ⟨rfl, rfl⟩
      exact .after hmoves₂ (h₂.ok hG₂ hframe.1 (hframe.2.trans htfc))
    | requestVoteResp =>
      rw [hkind] at hwins
      by_cases hcand : c.role = .candidate
      · obtain ⟨hcr, hγ⟩ := hsame (by rw [hcand]; simp)
        refine h₁.handleRequestVoteResp hG₁ (by rw [hcr]; exact hv) hm₁ hkind hto hterm ?_ htfc
        intro _
        rw [hγ]
        rw [hcr] at hwins ⊢
        exact hwins
      · exact h₁.handleRequestVoteResp hG₁ (fun hc' => absurd hc' hcand) hm₁ hkind hto hterm
          (fun hc' => absurd hc' hcand) htfc
    | appendEntries =>
      refine h₁.handleAppendEntries hG₁ hm₁ hto hkind hterm ?_ htfc
      exact fun hρ => ((hguard hρ hge).1 hkind).congr hbase hlog hcommit
    | appendEntriesResp =>
      exact h₁.handleAppendEntriesResp hG₁ hm₁ hto hterm hkind rfl htfc
    | installSnapshot =>
      refine h₁.handleInstallSnapshot hG₁ hm₁ hto hkind hterm ?_ htfc
      exact fun hρ => ((hguard hρ hge).2 hkind).congr hbase hlog hcommit
    | installSnapshotResp =>
      exact h₁.handleInstallSnapshotResp hG₁ hm₁ hterm hkind rfl htfc

/-! ## Compaction and restart. -/

theorem Indexed.dropWhile_drop {l : List LogEntry} (h : Indexed l) {a b : Nat} (hab : a ≤ b)
    (hb : b ≤ l.length) :
    (l.drop a).dropWhile (fun e => decide (e.index ≤ b)) = l.drop b := by
  induction hn : b - a generalizing a with
  | zero =>
    obtain rfl : a = b := by omega
    cases hd : l.drop a with
    | nil => rfl
    | cons e es =>
      have hlt := h.mem_drop (k := a) (e := e) (by rw [hd]; exact mem_cons_self)
      rw [dropWhile_cons_of_neg (by simpa using hlt)]
  | succ n ih =>
    have hlt : a < l.length := by omega
    have he : l[a]? = some l[a] := getElem?_eq_getElem hlt
    have hidx := h a _ he
    rw [List.drop_eq_getElem_cons hlt, List.dropWhile_cons_of_pos (by
      apply decide_eq_true
      omega)]
    exact ih (by omega) (by omega)

theorem LogNode.compact (h : LogNode ρ M ldr γ p d r) (hρ : ρ = .guarded) (hrest : r.ready = {})
    {applied : Nat} (hle : applied ≤ r.commit) (data : Bytes) (saved : Bool) :
    LogNode ρ M ldr γ p (Cluster.compactNode ⟨d, r⟩ applied data saved).storage
      (Cluster.compactNode ⟨d, r⟩ applied data saved).raft := by
  have hc := h.commit hρ
  have hlen := hc.le_length
  -- the core keeps a window of the same full log, with a base up to `applied`
  have hcore : LogNode ρ M ldr γ p d (r.compactTo applied data) := by
    unfold Core.compactTo
    split
    · exact h
    · rename_i hlt
      refine { h with
        window := ⟨?_, ?_, ?_⟩
        disk := ⟨h.disk.window, h.disk.le.trans ?_⟩
        lead := fun hl => { h.lead hl with }
        commit := fun _ => { hc with base_le := hle }
        plain := fun hu => ?_ }
      · show applied ≤ _
        omega
      · show r.log.drop (applied - r.base.lastIndex) = (γ.hist.log p).drop applied
        rw [h.window.log_eq, drop_drop]
        congr 1
        omega
      · show r.termAt applied = termOf LogEntry.term (γ.hist.log p) applied
        exact h.window.termAt_eq (by omega) (by omega)
      · show r.base.lastIndex ≤ applied
        omega
      · rw [hρ] at hu
        cases hu
  cases saved with
  | false => exact hcore
  | true =>
    have hready : (r.compactTo applied data).ready = {} := by
      unfold Core.compactTo
      split <;> exact hrest
    -- the storage takes over the base of the core
    have hsnap : d.pendingSnap none = d.snap := rfl
    have hpend : d.pendingEntries none 0 [] = d.entries := by simp [pendingEntries]
    have hw := hcore.disk.window
    have hl := hcore.disk.le
    rw [hready] at hw hl
    replace hw : Window d.snap d.entries (γ.hist.log p) := by
      rw [← hpend, ← hsnap]; exact hw
    replace hl : d.snap.lastIndex ≤ (r.compactTo applied data).base.lastIndex := hl
    have hentries : d.entries.dropWhile (fun e => decide
        (e.index ≤ (r.compactTo applied data).base.lastIndex)) =
        (γ.hist.log p).drop (r.compactTo applied data).base.lastIndex := by
      rw [hw.log_eq]
      exact h.indexed.dropWhile_drop hl hcore.window.le
    have hnew : (Cluster.compactNode ⟨d, r⟩ applied data true).storage.entries =
        (γ.hist.log p).drop (r.compactTo applied data).base.lastIndex := hentries
    refine { hcore with
      sorted := by rw [hnew]; exact h.indexed.pairwise_drop _
      disk := ⟨?_, ?_⟩ }
    · show Window (pendingSnap _ (r.compactTo applied data).ready.snapshotToApply)
        (pendingEntries _ (r.compactTo applied data).ready.snapshotToApply
          (r.compactTo applied data).ready.truncateFrom
          (r.compactTo applied data).ready.entriesToAppend) _
      rw [hready]
      refine ⟨hcore.window.le, ?_, hcore.window.term_eq⟩
      show pendingEntries (Cluster.compactNode ⟨d, r⟩ applied data true).storage none 0 []
        = (γ.hist.log p).drop (r.compactTo applied data).base.lastIndex
      rw [← hnew]
      simp [pendingEntries]
    · show (pendingSnap _ (r.compactTo applied data).ready.snapshotToApply).lastIndex ≤ _
      rw [hready]
      exact le_rfl

theorem LogNode.restart (h : LogNode ρ M ldr γ p d r) (hrest : r.ready = {})
    (hhard : d.hard = r.hard) {cfg : Config} (hcfg : cfg.Valid M p) :
    LogNode ρ M ldr γ p (Cluster.restartNode ⟨d, r⟩ cfg).storage
      (Cluster.restartNode ⟨d, r⟩ cfg).raft := by
  have hw := h.disk.window
  have hl := h.disk.le
  rw [hrest] at hw hl
  have hpend : d.pendingEntries none 0 [] = d.entries := by simp [pendingEntries]
  replace hw : Window d.snap d.entries (γ.hist.log p) := by rw [← hpend]; exact hw
  replace hl : d.snap.lastIndex ≤ r.base.lastIndex := hl
  exact {
    mem := h.mem
    valid := hcfg
    term := h.term.trans (by rw [← hhard]; rfl)
    indexed := h.indexed
    window := hw
    sorted := h.sorted
    disk := by
      refine ⟨?_, le_rfl⟩
      show Window d.snap (d.pendingEntries none 0 []) _
      rw [hpend]
      exact hw
    backed := by
      show d.hard.votedFor ≠ 0 → d.hard.term ≤ γ.hist.term d.hard.votedFor ∧
        VoteBacked γ d.hard.term p (γ.clog d.hard.term d.hard.votedFor)
      rw [hhard]
      exact h.backed
    spent := by
      show γ.hist.voted d.hard.term p → d.hard.votedFor ≠ 0
      rw [hhard]
      exact h.spent
    cand := fun hc => absurd hc (by simp [Cluster.restartNode, Core.start, resetElectionTimer])
    lead := fun hl => absurd hl (by simp [Cluster.restartNode, Core.start, resetElectionTimer])
    commit := fun hρ => by
      -- the new incarnation starts at the base of its storage
      have hc := h.commit hρ
      have hle : d.snap.lastIndex ≤ r.commit := hl.trans hc.base_le
      refine ⟨le_rfl, rfl, hw.le, ?_⟩
      show CommittedBy _ _ _ d.hard.term ((γ.hist.log p).take d.snap.lastIndex)
      rw [hhard]
      exact hc.committed.restrict (take_prefix_take_left hle)
    plain := fun hρ => by
      have hz := h.plain hρ
      show d.snap.lastIndex = 0
      omega
    msgs := List.forall_mem_nil _
    emitted := fun _ _ he => absurd he not_mem_nil }

end

end Flotilla.Raft
