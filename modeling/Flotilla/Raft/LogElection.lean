/-
  Raft.LogElection — elections, seen by the replicated log.

  `BecomeFollower` is the move `raiseTerm`, a first vote is `castVote`, a
  campaign is both, and `BecomeLeader` is `elect` followed by `extend` with the
  no-op of the new term.  A vote cast after the term found its leader is not
  recorded: it cannot elect anyone any more.
-/
import Flotilla.Raft.LogInvariant

namespace Flotilla.Raft

open Core UnorderedMap
open ReplicatedLog

/-! ## The moves on the ghost state. -/

namespace Ghost

def raise (γ : Ghost) (p : NodeId) (t : Nat) : Ghost := { γ with hist := γ.hist.raiseTerm p t }

open Classical in
/-- `p` votes, if its term still has no leader. -/
noncomputable def vote (γ : Ghost) (p : NodeId) : Ghost :=
  { γ with hist := if γ.hist.led (γ.hist.term p) then γ.hist else γ.hist.castVote p }

/-- `p` notes the log it campaigns with in term `t`. -/
def announce (γ : Ghost) (p : NodeId) (t : Nat) : Ghost :=
  { γ with clog := fun u q => if u = t ∧ q = p then γ.hist.log p else γ.clog u q }

variable {M : Membership} {ldr : Nat → NodeId} {p : NodeId} {γ : Ghost} {t : Nat}

theorem moves_raise (ht : γ.hist.term p ≤ t) : γ.Moves ldr p (γ.raise p t) where
  ext := History.extends_raiseTerm ht
  log_other _ _ := rfl
  term_other _ hq := update_of_ne hq ..
  voted_other _ _ _ h := h
  llog_other _ _ := .inl rfl
  clog_keep _ _ _ := rfl

theorem global_raise (hG : γ.Global M ldr) (ht : γ.hist.term p ≤ t) :
    (γ.raise p t).Global M ldr where
  sound := hG.sound.raiseTerm ht
  led_ldr := hG.led_ldr
  indexed := hG.indexed

theorem moves_announce (ht : γ.hist.term p < t) : γ.Moves ldr p (γ.announce p t) where
  ext := .refl _
  log_other _ _ := rfl
  term_other _ _ := rfl
  voted_other _ _ _ h := h
  llog_other _ _ := .inl rfl
  clog_keep u q hu := by
    apply if_neg
    intro hc
    rw [hc.1, hc.2] at hu
    omega

theorem global_announce (hG : γ.Global M ldr) : (γ.announce p t).Global M ldr :=
  ⟨hG.sound, hG.led_ldr, hG.indexed⟩

theorem vote_of_led (h : γ.hist.led (γ.hist.term p)) : γ.vote p = γ := by
  unfold vote
  rw [if_pos h]

theorem vote_of_open (h : ¬ γ.hist.led (γ.hist.term p)) :
    γ.vote p = { γ with hist := γ.hist.castVote p } := by
  unfold vote
  rw [if_neg h]

theorem moves_vote (hnot : ¬ γ.hist.voted (γ.hist.term p) p) : γ.Moves ldr p (γ.vote p) := by
  by_cases hled : γ.hist.led (γ.hist.term p)
  · rw [vote_of_led hled]
    exact .refl ldr p γ
  · rw [vote_of_open hled]
    exact {
      ext := History.extends_castVote hnot
      log_other := fun _ _ => rfl
      term_other := fun _ _ => rfl
      voted_other := fun u q hq hv => hv.resolve_right (fun hc => hq hc.2)
      llog_other := fun _ _ => .inl rfl
      clog_keep := fun _ _ _ => rfl }

theorem global_vote (hG : γ.Global M ldr) (hnot : ¬ γ.hist.voted (γ.hist.term p) p) :
    (γ.vote p).Global M ldr := by
  by_cases hled : γ.hist.led (γ.hist.term p)
  · rw [vote_of_led hled]
    exact hG
  · rw [vote_of_open hled]
    exact ⟨hG.sound.castVote hnot hled, hG.led_ldr, hG.indexed⟩

theorem vote_log (γ : Ghost) (p q : NodeId) : (γ.vote p).hist.log q = γ.hist.log q := by
  unfold vote
  split <;> rfl

theorem vote_term (γ : Ghost) (p q : NodeId) : (γ.vote p).hist.term q = γ.hist.term q := by
  unfold vote
  split <;> rfl

theorem vote_llog (γ : Ghost) (p : NodeId) (t : Nat) :
    (γ.vote p).hist.llog t = γ.hist.llog t := by
  unfold vote
  split <;> rfl

theorem vote_backed {cand : List LogEntry} (hup : UpToDate LogEntry.term cand (γ.hist.log p)) :
    VoteBacked (γ.vote p) (γ.hist.term p) p cand := by
  by_cases hled : γ.hist.led (γ.hist.term p)
  · rw [vote_of_led hled]
    exact .inl hled
  · rw [vote_of_open hled]
    refine .inr ⟨.inr ⟨rfl, rfl⟩, ?_⟩
    simpa [History.castVote] using hup

/-- `p` enters the next term as a candidate and votes for itself. -/
noncomputable def campaign (γ : Ghost) (p : NodeId) : Ghost :=
  ((γ.announce p (γ.hist.term p + 1)).raise p (γ.hist.term p + 1)).vote p

theorem raise_term_self (γ : Ghost) (p : NodeId) (t : Nat) :
    (γ.raise p t).hist.term p = t := update_self ..

theorem not_voted_next (hG : γ.Global M ldr) (ht : γ.hist.term p < t) :
    ¬ γ.hist.voted t p := by
  intro hv
  have := hG.sound.voted_le _ _ hv
  omega

theorem moves_campaign (hG : γ.Global M ldr) : γ.Moves ldr p (γ.campaign p) := by
  have hraise : (γ.announce p (γ.hist.term p + 1)).Moves ldr p
      ((γ.announce p (γ.hist.term p + 1)).raise p (γ.hist.term p + 1)) :=
    moves_raise (Nat.le_succ _)
  refine ((moves_announce (Nat.lt_succ_self _)).trans hraise).trans (moves_vote ?_)
  rw [raise_term_self]
  exact not_voted_next (γ := γ) hG (Nat.lt_succ_self _)

theorem global_campaign (hG : γ.Global M ldr) : (γ.campaign p).Global M ldr := by
  refine global_vote (global_raise (global_announce hG) (Nat.le_succ _)) ?_
  rw [raise_term_self]
  exact not_voted_next (γ := γ) hG (Nat.lt_succ_self _)

theorem campaign_term (γ : Ghost) (p : NodeId) :
    (γ.campaign p).hist.term p = γ.hist.term p + 1 := by
  unfold campaign
  rw [vote_term, raise_term_self]

theorem campaign_log (γ : Ghost) (p q : NodeId) : (γ.campaign p).hist.log q = γ.hist.log q := by
  unfold campaign
  rw [vote_log]
  rfl

theorem campaign_clog (γ : Ghost) (p : NodeId) :
    (γ.campaign p).clog (γ.hist.term p + 1) p = γ.hist.log p := if_pos ⟨rfl, rfl⟩

theorem campaign_backed (γ : Ghost) (p : NodeId) :
    VoteBacked (γ.campaign p) (γ.hist.term p + 1) p (γ.hist.log p) := by
  have hback := vote_backed (γ := (γ.announce p (γ.hist.term p + 1)).raise p (γ.hist.term p + 1))
    (p := p) (.inr ⟨rfl, le_rfl⟩)
  rw [raise_term_self] at hback
  exact hback

end Ghost

/-! ## Sending and following. -/

section

variable {ρ : Regime} {M : Membership} {ldr : Nat → NodeId} {γ γ' : Ghost} {p q : NodeId}
  {d : Storage} {r : Core} {m : Message}

theorem LogNode.push (h : LogNode ρ M ldr γ p d r) {ms : List Message}
    (hms : ∀ m ∈ ms, LogMsg ρ M ldr γ m) : LogNode ρ M ldr γ p d (r.push ms) :=
  { h with
    disk := { h.disk with }
    lead := fun hl => { h.lead hl with }
    commit := fun hρ => { h.commit hρ with }
    msgs := fun m hm => (mem_append.mp hm).elim (h.msgs m) (hms m) }

theorem LogNode.answer (h : LogNode ρ M ldr γ p d r) {m : Message} (hto : p ≠ m.to_)
    (hkind : m.kind = .requestVoteResp ∨ m.kind = .appendEntriesResp ∨
      m.kind = .installSnapshotResp)
    (hgranted : m.granted = true → r.hard.term ≤ γ.hist.term m.to_ ∧
      VoteBacked γ r.hard.term p (γ.clog r.hard.term m.to_))
    (hacked : m.success = true → m.matchIndex ≤ γ.hist.ack r.hard.term p) :
    LogNode ρ M ldr γ p d (r.send m) := by
  rw [send_eq]
  refine h.push ?_
  intro m' hm'
  rw [mem_singleton.mp hm']
  have hid : r.config.id = p := h.valid.1
  refine {
    from_mem := by rw [hid]; exact h.mem
    from_ne := by rw [hid]; exact hto
    term_le := by rw [hid]; exact h.term.ge
    request := fun hk => ?_
    granted := fun _ hg => ?_
    append := fun hk => ?_
    acked := fun _ hs => ?_
    snapshot := fun hk => ?_ }
  · rcases hkind with hk' | hk' | hk' <;> cases hk'.symm.trans hk
  · show r.hard.term ≤ γ.hist.term m.to_ ∧ VoteBacked γ r.hard.term r.config.id _
    rw [hid]
    exact hgranted hg
  · rcases hkind with hk' | hk' | hk' <;> cases hk'.symm.trans hk
  · show m.matchIndex ≤ γ.hist.ack r.hard.term r.config.id
    rw [hid]
    exact hacked hs
  · rcases hkind with hk' | hk' | hk' <;> cases hk'.symm.trans hk

theorem CommitOk.mono (hG : γ.Global M ldr) (hE : γ.hist.Extends γ'.hist) {r' : Core}
    (h : CommitOk M γ p r) (hlog : γ'.hist.log p = γ.hist.log p) (hbase : r'.base = r.base)
    (hcommit : r'.commit = r.commit) (hlast : r'.lastEmitted = r.lastEmitted)
    (hterm : r.hard.term ≤ r'.hard.term) : CommitOk M γ' p r' where
  base_le := by rw [hbase, hcommit]; exact h.base_le
  emitted_eq := by rw [hlast, hcommit]; exact h.emitted_eq
  le_length := by rw [hlog, hcommit]; exact h.le_length
  committed := by rw [hlog, hcommit]; exact h.committed.mono hG.sound hE hterm

theorem LogNode.becomeFollower (hG : γ.Global M ldr) (h : LogNode ρ M ldr γ p d r) {t : Nat}
    (ht : r.hard.term ≤ t) (leader : NodeId) :
    LogNode ρ M ldr (γ.raise p t) p d (r.becomeFollower t leader) := by
  have ht' : γ.hist.term p ≤ t := by rw [h.term]; exact ht
  have hmoves : γ.Moves ldr p (γ.raise p t) := Ghost.moves_raise ht'
  have hself : (γ.raise p t).hist.term p = t := update_self ..
  unfold Core.becomeFollower
  by_cases hlt : r.hard.term < t
  · -- a new term: the vote is open again
    rw [if_pos hlt]
    exact {
      mem := h.mem
      valid := h.valid
      term := hself
      indexed := h.indexed
      window := h.window
      sorted := h.sorted
      disk := { h.disk with }
      backed := fun hv => absurd rfl hv
      spent := fun hv => by
        have hle := hG.sound.voted_le _ _ hv
        rw [h.term] at hle
        exact absurd hlt (not_lt.mpr hle)
      cand := nofun
      lead := nofun
      commit := fun hρ => (h.commit hρ).mono hG hmoves.ext rfl rfl rfl rfl ht
      plain := h.plain
      msgs := fun m hm => (h.msgs m hm).mono hG hmoves
      emitted := fun hρ e he => (h.emitted hρ e he).mono hG hmoves.ext }
  · rw [if_neg hlt]
    have hteq : r.hard.term = t := by omega
    exact {
      mem := h.mem
      valid := h.valid
      term := hself.trans hteq.symm
      indexed := h.indexed
      window := h.window
      sorted := h.sorted
      disk := { h.disk with }
      backed := fun hv => by
        obtain ⟨hle, hback⟩ := h.backed hv
        exact ⟨hle.trans (hmoves.ext.term _), hback.mono hmoves.ext⟩
      spent := h.spent
      cand := nofun
      lead := nofun
      commit := fun hρ => (h.commit hρ).mono hG hmoves.ext rfl rfl rfl rfl le_rfl
      plain := h.plain
      msgs := fun m hm => (h.msgs m hm).mono hG hmoves
      emitted := fun hρ e he => (h.emitted hρ e he).mono hG hmoves.ext }

/-! ## Votes. -/

theorem LogNode.handleRequestVote (hG : γ.Global M ldr) (h : LogNode ρ M ldr γ p d r)
    (hm : LogMsg ρ M ldr γ m) (hto : m.to_ = p) (hkind : m.kind = .requestVote)
    (hterm : m.term = r.hard.term) :
    ∃ γ', γ.Moves ldr p γ' ∧ γ'.Global M ldr ∧ LogNode ρ M ldr γ' p d (r.handleRequestVote m) := by
  have hne : p ≠ m.from_ := by rw [← hto]; exact hm.from_ne.symm
  obtain ⟨hidx, hlast⟩ := hm.request hkind
  have hfrom : r.hard.term ≤ γ.hist.term m.from_ := by rw [← hterm]; exact hm.term_le
  unfold Core.handleRequestVote
  dsimp only
  split
  · rename_i hgrant
    obtain ⟨hcan, hup⟩ := hgrant
    by_cases hsame : r.hard.votedFor = m.from_
    · -- the same vote again: it was backed when it was cast
      rw [if_neg (fun hc => hc hsame)]
      refine ⟨γ, .refl ldr p γ, hG, ?_⟩
      have hreset : LogNode ρ M ldr γ p d r.resetElectionTimer := h.same {}
      refine hreset.answer hne (.inl rfl) (fun _ => ?_) nofun
      have hnz : r.hard.votedFor ≠ 0 := by rw [hsame]; exact Membership.ne_zero hm.from_mem
      have hback := (h.backed hnz).2
      rw [hsame] at hback
      exact ⟨hfrom, hback⟩
    · -- a new vote: the check of the source is `UpToDate` on the full logs
      rw [if_pos hsame]
      have hzero : r.hard.votedFor = 0 := hcan.resolve_right hsame
      have hnot : ¬ γ.hist.voted (γ.hist.term p) p := by
        rw [h.term]
        exact fun hv => h.spent hv hzero
      have hmoves : γ.Moves ldr p (γ.vote p) := Ghost.moves_vote hnot
      have hUp : UpToDate LogEntry.term (γ.clog m.term m.from_) (γ.hist.log p) := by
        rw [h.window.lastTerm_eq, h.window.lastIndex_eq, hlast, hidx] at hup
        exact hup
      have hback := Ghost.vote_backed (γ := γ) (p := p) hUp
      rw [h.term, hterm] at hback
      refine ⟨γ.vote p, hmoves, Ghost.global_vote hG hnot, ?_⟩
      have hvoted : LogNode ρ M ldr (γ.vote p) p d (resetElectionTimer
          (Core.persistHardState { r with hard := { r.hard with votedFor := m.from_ } })) := by
        exact {
          mem := h.mem
          valid := h.valid
          term := (Ghost.vote_term γ p p).trans h.term
          indexed := by rw [Ghost.vote_log]; exact h.indexed
          window := by rw [Ghost.vote_log]; exact h.window
          sorted := h.sorted
          disk := by rw [Ghost.vote_log]; exact { h.disk with }
          backed := fun _ => ⟨hfrom.trans (hmoves.ext.term _), hback⟩
          spent := fun _ => Membership.ne_zero hm.from_mem
          cand := fun hc => by
            obtain ⟨heq, hvotes⟩ := h.cand hc
            rw [Ghost.vote_log]
            exact ⟨heq, fun v hv => (hvotes v hv).mono hmoves.ext⟩
          lead := fun hl => by
            have hlead := h.lead hl
            exact {
              led := hmoves.ext.led _ hlead.led
              is_ldr := hlead.is_ldr
              log_eq := by
                rw [Ghost.vote_log, Ghost.vote_llog]; exact hlead.log_eq
              matched := fun v hv => (hlead.matched v hv).trans (hmoves.ext.ack _ _)
              next := by rw [Ghost.vote_llog]; exact hlead.next }
          commit := fun hρ =>
            (h.commit hρ).mono hG hmoves.ext (Ghost.vote_log γ p p) rfl rfl rfl le_rfl
          plain := h.plain
          msgs := fun m' hm' => (h.msgs m' hm').mono hG hmoves
          emitted := fun hρ e he => (h.emitted hρ e he).mono hG hmoves.ext }
      refine hvoted.answer hne (.inl rfl) (fun _ => ?_) nofun
      exact ⟨hfrom.trans (hmoves.ext.term _), hback⟩
  · refine ⟨γ, .refl ldr p γ, hG, ?_⟩
    exact h.answer hne (.inl rfl) nofun nofun

theorem LogNode.asCandidate (hG : γ.Global M ldr) (h : LogNode ρ M ldr γ p d r) :
    LogNode ρ M ldr (γ.campaign p) p d r.asCandidate := by
  have hid : r.config.id = p := h.valid.1
  have hmoves : γ.Moves ldr p (γ.campaign p) := Ghost.moves_campaign hG
  have hlog : (γ.campaign p).hist.log p = γ.hist.log p := Ghost.campaign_log γ p p
  have hback : VoteBacked (γ.campaign p) (r.hard.term + 1) p (γ.hist.log p) := by
    rw [← h.term]; exact Ghost.campaign_backed γ p
  have hclog : (γ.campaign p).clog (r.hard.term + 1) p = γ.hist.log p := by
    rw [← h.term]; exact Ghost.campaign_clog γ p
  have hterm : (γ.campaign p).hist.term p = r.hard.term + 1 := by rw [Ghost.campaign_term, h.term]
  exact {
    mem := h.mem
    valid := h.valid
    term := hterm
    indexed := by rw [hlog]; exact h.indexed
    window := by rw [hlog]; exact h.window
    sorted := h.sorted
    disk := by rw [hlog]; exact { h.disk with }
    backed := fun _ => by
      show r.hard.term + 1 ≤ (γ.campaign p).hist.term r.config.id ∧
        VoteBacked _ (r.hard.term + 1) p ((γ.campaign p).clog (r.hard.term + 1) r.config.id)
      rw [hid, hterm, hclog]
      exact ⟨le_rfl, hback⟩
    spent := fun _ => by
      show r.config.id ≠ 0
      rw [hid]
      exact Membership.ne_zero h.mem
    cand := fun _ => by
      rw [hlog]
      refine ⟨hclog.symm, fun v hv => ?_⟩
      -- the only vote so far is the candidate's own
      have hvp : v = r.config.id := congrArg Sigma.fst (mem_singleton.mp hv)
      rw [hvp, hid]
      exact hback
    lead := fun hl => absurd hl (by
      simp [Core.asCandidate, resetElectionTimer, Core.persistHardState])
    commit := fun hρ => (h.commit hρ).mono hG hmoves.ext hlog rfl rfl rfl (Nat.le_succ _)
    plain := h.plain
    msgs := fun m hm => (h.msgs m hm).mono hG hmoves
    emitted := fun hρ e he => (h.emitted hρ e he).mono hG hmoves.ext }

theorem voteRequest_logMsg (h : LogNode ρ M ldr γ p d r) (hrole : r.role = .candidate)
    {peer : NodeId} (hpeer : peer ≠ r.config.id) : LogMsg ρ M ldr γ (r.voteRequest peer) := by
  have hid : r.config.id = p := h.valid.1
  have hlog := (h.cand hrole).1
  exact {
    from_mem := by
      show r.config.id ∈ M.peers
      rw [hid]; exact h.mem
    from_ne := hpeer.symm
    term_le := by
      show r.hard.term ≤ γ.hist.term r.config.id
      rw [hid]; exact h.term.ge
    request := fun _ => by
      show r.lastIndex = (γ.clog r.hard.term r.config.id).length ∧
        r.lastTerm = termOf LogEntry.term (γ.clog r.hard.term r.config.id) r.lastIndex
      rw [hid, ← hlog, h.window.lastIndex_eq, h.window.lastTerm_eq]
      exact ⟨rfl, rfl⟩
    granted := nofun
    append := nofun
    acked := nofun
    snapshot := nofun }

theorem LogNode.recordVote (h : LogNode ρ M ldr γ p d r) (hm : LogMsg ρ M ldr γ m)
    (hkind : m.kind = .requestVoteResp) (hto : m.to_ = p) (hterm : m.term = r.hard.term) :
    LogNode ρ M ldr γ p d { r with votes := r.votes.insert m.from_ m.granted } := by
  refine { h with
    disk := { h.disk with }
    cand := fun hc => ⟨(h.cand hc).1, fun v hv => ?_⟩
    lead := fun hl => { h.lead hl with }
    commit := fun hρ => { h.commit hρ with } }
  rcases mem_insert_entries hv with heq | hold
  · have hfrom : v = m.from_ := congrArg Sigma.fst heq
    have hgr : true = m.granted := by
      simp only [Sigma.mk.injEq] at heq
      exact eq_of_heq heq.2
    have hback := (hm.granted hkind hgr.symm).2
    rw [hto, hterm, ← (h.cand hc).1] at hback
    rw [hfrom]
    exact hback
  · exact (h.cand hc).2 v hold

/-! ## Winning. -/

theorem UnorderedMap.getD_foldl_insert {α : Type} (peers : List NodeId) (v d : α) {q : NodeId}
    (m : UnorderedMap α) (h : q ∈ peers ∨ m.getD q d = v) :
    UnorderedMap.getD (peers.foldl (fun m peer => m.insert peer v) m) q d = v := by
  induction peers generalizing m with
  | nil => exact h.resolve_left (by simp)
  | cons peer peers ih =>
    rw [foldl_cons]
    apply ih
    by_cases hq : q = peer
    · right
      rw [hq]
      exact getD_insert_self m peer v d
    · rcases h with hmem | hval
      · exact .inl ((mem_cons.mp hmem).resolve_left hq)
      · exact .inr ((getD_insert_of_ne m v d hq).trans hval)

theorem LogNode.asLeader (hG : γ.Global M ldr) (h : LogNode ρ M ldr γ p d r)
    (hrole : r.role = .candidate) (hopen : ¬ γ.hist.led r.hard.term)
    (hldr : ldr r.hard.term = p) {Q : Finset NodeId} (hQ : Majority M.members Q)
    (hvotes : ∀ v ∈ Q, ⟨v, true⟩ ∈ r.votes.entries) :
    ∃ γ', γ.Moves ldr p γ' ∧ γ'.Global M ldr ∧ LogNode ρ M ldr γ' p d r.asLeader := by
  have hopen' : ¬ γ.hist.led (γ.hist.term p) := by rw [h.term]; exact hopen
  have hbacked : ∀ v ∈ Q, γ.hist.voted (γ.hist.term p) v ∧
      UpToDate LogEntry.term (γ.hist.log p) (γ.hist.vlog (γ.hist.term p) v) := by
    intro v hv
    rw [h.term]
    exact ((h.cand hrole).2 v (hvotes v hv)).resolve_left hopen
  obtain ⟨γ', hγ'⟩ : ∃ γ', γ' = { γ with hist := γ.hist.elect p Q } := ⟨_, rfl⟩
  have hllog : γ'.hist.llog r.hard.term = γ.hist.log p := by
    rw [hγ', ← h.term]
    exact update_self ..
  have hmoves : γ.Moves ldr p γ' := by
    rw [hγ']
    exact {
      ext := History.extends_elect hopen'
      log_other := fun _ _ => rfl
      term_other := fun _ _ => rfl
      voted_other := fun _ _ _ hv => hv
      llog_other := fun t ht => .inl (update_of_ne (by
        intro heq
        rw [heq] at ht
        exact hopen' ht) ..)
      clog_keep := fun _ _ _ => rfl }
  have hlog : γ'.hist.log p = γ.hist.log p := by rw [hγ']; rfl
  have hglobal : γ'.Global M ldr := by
    rw [hγ']
    refine ⟨hG.sound.elect hopen' hQ hbacked, ?_, ?_⟩
    · intro t ht
      rcases ht with ht | ht
      · exact hG.led_ldr t ht
      · rw [ht, h.term, hldr]
        exact Membership.ne_zero h.mem
    · intro t ht
      by_cases heq : t = γ.hist.term p
      · have hsame : (γ.hist.elect p Q).llog t = γ.hist.log p := by
          rw [heq]; exact update_self ..
        show Indexed ((γ.hist.elect p Q).llog t)
        rw [hsame]
        exact h.indexed
      · have hsame : (γ.hist.elect p Q).llog t = γ.hist.llog t := update_of_ne heq ..
        show Indexed ((γ.hist.elect p Q).llog t)
        rw [hsame]
        exact hG.indexed t (ht.resolve_right heq)
  refine ⟨γ', hmoves, hglobal, ?_⟩
  have hlater : LogNode ρ M ldr γ' p d r :=
    h.later hG hmoves hlog (by rw [hγ']; rfl) (fun hv => h.spent (by rw [hγ'] at hv; exact hv))
      (fun hl => nomatch hrole.symm.trans hl)
  exact { hlater with
    disk := { hlater.disk with }
    cand := nofun
    lead := fun _ => {
      led := by
        rw [hγ']
        exact .inr h.term.symm
      is_ldr := hldr
      log_eq := hlog.trans hllog.symm
      matched := fun q hq => by
        have hz : r.asLeader.match_.getD q 0 = 0 := getD_foldl_insert _ _ _ _
          (.inl ((mem_peers_iff h.valid).mpr hq))
        rw [hz]
        exact Nat.zero_le _
      next := fun q hq => by
        have hn : r.asLeader.next_.getD q 0 = r.lastIndex + 1 := getD_foldl_insert _ _ _ _
          (.inl ((mem_peers_iff h.valid).mpr hq))
        rw [hn, h.window.lastIndex_eq]
        show 0 < _ ∧ _ ≤ (γ'.hist.llog r.hard.term).length + 1
        rw [hllog]
        exact ⟨Nat.succ_pos _, le_rfl⟩ }
    commit := fun hρ => { hlater.commit hρ with } }

end

end Flotilla.Raft
