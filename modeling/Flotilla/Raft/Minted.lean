/-
  Raft.Minted — an index and a term determine an entry.

  Entries come into being in two places: `BecomeLeader` makes the no-op of its
  term and `Propose` the entry of a command.  Every other operation only moves
  entries between logs, messages, storage and the emitted batches.  A registry of
  all the entries ever made has one for an index and a term: the leader of the
  term makes them past the end of its log, which never shrinks while it leads.
-/
import Flotilla.Raft.Reachable

namespace Flotilla.Raft

/-! ## What a core carries. -/

/-- The entries of `m` are registered, and only the leader of its term replicates. -/
structure Message.Carries (E : Set LogEntry) (ldr : Nat → NodeId) (m : Message) : Prop where
  entries : ∀ e ∈ m.entries, e ∈ E
  apart : m.from_ ≠ m.to_
  from_ldr : m.kind = .appendEntries ∨ m.kind = .installSnapshot → ldr m.term = m.from_

/-- Everything in the log and in `ready` is registered. -/
structure Core.Carries (E : Set LogEntry) (ldr : Nat → NodeId) (r : Core) : Prop where
  log : ∀ e ∈ r.log, e ∈ E
  append : ∀ e ∈ r.ready.entriesToAppend, e ∈ E
  committed : ∀ e ∈ r.ready.committed, e ∈ E
  messages : ∀ m ∈ r.ready.messages, m.Carries E ldr
  lead : r.role = .leader → ldr r.hard.term = r.config.id
  -- what is emitted next lies inside the log
  base_le : r.base.lastIndex ≤ r.commit
  commit_le : r.commit ≤ r.lastEmitted

theorem Message.Carries.mono {E E' : Set LogEntry} {ldr : Nat → NodeId} {m : Message}
    (h : m.Carries E ldr) (hE : E ⊆ E') : m.Carries E' ldr :=
  { h with entries := fun e he => hE (h.entries e he) }

theorem Message.Carries.ballot {E : Set LogEntry} {ldr ldr' : Nat → NodeId} {m : Message}
    (h : m.Carries E ldr) (hkeep : ∀ t, ldr t ≠ 0 → ldr' t = ldr t) (hfrom : m.from_ ≠ 0) :
    m.Carries E ldr' :=
  { h with
    from_ldr := fun hk => by
      have heq := h.from_ldr hk
      rw [hkeep _ (by rw [heq]; exact hfrom)]
      exact heq }

theorem Core.entryAt_mem {r : Core} {i : Nat} (hb : r.base.lastIndex < i) (hi : i ≤ r.lastIndex) :
    r.entryAt i ∈ r.log := by
  have hslot : i - r.base.lastIndex - 1 < r.log.length := by
    unfold Core.lastIndex at hi
    omega
  unfold Core.entryAt
  rw [getElem?_eq_getElem hslot, getD_some]
  exact getElem_mem hslot

namespace Core.Carries

variable {E : Set LogEntry} {ldr : Nat → NodeId} {r : Core}

theorem mono {E' : Set LogEntry} (h : r.Carries E ldr) (hE : E ⊆ E') : r.Carries E' ldr :=
  { h with
    log := fun e he => hE (h.log e he)
    append := fun e he => hE (h.append e he)
    committed := fun e he => hE (h.committed e he)
    messages := fun m hm => (h.messages m hm).mono hE }

theorem push (h : r.Carries E ldr) {ms : List Message} (hms : ∀ m ∈ ms, m.Carries E ldr) :
    (r.push ms).Carries E ldr :=
  { h with
    messages := fun m hm => (mem_append.mp hm).elim (h.messages m) (hms m) }

variable {m : Message}

section

variable (h : r.Carries E ldr)

include h

theorem send (hto : r.config.id ≠ m.to_) (hentries : m.entries = [])
    (hkind : ¬ (m.kind = .appendEntries ∨ m.kind = .installSnapshot)) :
    (r.send m).Carries E ldr := by
  rw [Core.send_eq]
  apply h.push
  intro m' hm'
  rw [mem_singleton.mp hm']
  refine ⟨fun e he => ?_, hto, fun hk => absurd hk hkind⟩
  have hnone : e ∈ m.entries := he
  rw [hentries] at hnone
  cases hnone

theorem appendMessage (hl : r.role = .leader) {peer : NodeId}
    (hpeer : peer ≠ r.config.id) : (r.appendMessage peer).Carries E ldr := by
  have hldr := h.lead hl
  unfold Core.appendMessage
  dsimp only
  split
  · exact ⟨nofun, hpeer.symm, fun _ => hldr⟩
  · refine ⟨fun e he => ?_, hpeer.symm, fun _ => hldr⟩
    have hlog := (takeBatch_prefix_self _ _ _ _ _).subset he
    exact h.log e (mem_of_mem_drop hlog)

theorem sendAppend (hl : r.role = .leader) {peer : NodeId}
    (hpeer : peer ≠ r.config.id) : (r.sendAppend peer).Carries E ldr := by
  rw [Core.sendAppend_eq]
  apply h.push
  intro m hm
  rw [mem_singleton.mp hm]
  exact h.appendMessage hl hpeer

theorem broadcastAppend (hl : r.role = .leader) : r.broadcastAppend.Carries E ldr := by
  rw [Core.broadcastAppend_eq]
  apply h.push
  intro m hm
  obtain ⟨peer, hpeer, rfl⟩ := mem_map.mp hm
  exact h.appendMessage hl (by simpa using (mem_filter.mp hpeer).2)

theorem emit {n : Nat} (hb : r.base.lastIndex ≤ n) (hn : n ≤ r.lastIndex) :
    ({ r with commit := n } : Core).emitCommitted.Carries E ldr := by
  have hfrom : r.base.lastIndex ≤ r.lastEmitted := h.base_le.trans h.commit_le
  exact { h with
    base_le := hb
    commit_le := Nat.le_max_right _ _
    committed := fun e he => by
      rcases mem_append.mp he with hold | hnew
      · exact h.committed e hold
      · obtain ⟨i, hi, rfl⟩ := mem_map.mp hnew
        have hrange : r.lastEmitted + 1 ≤ i ∧ i < r.lastEmitted + 1 + (n - r.lastEmitted) :=
          List.mem_range'_1.mp hi
        exact h.log _ (Core.entryAt_mem (r := r) (by omega) (by omega)) }

theorem maybeAdvanceCommit : r.maybeAdvanceCommit.Carries E ldr := by
  unfold Core.maybeAdvanceCommit
  split
  · exact h
  · split
    · exact h
    · rename_i n hn
      obtain ⟨hcommit, hlast, _⟩ := Core.commitIndexFrom_spec hn
      exact h.emit (h.base_le.trans hcommit.le) hlast

theorem becomeFollower (term : Nat) (leader : NodeId) :
    (r.becomeFollower term leader).Carries E ldr := by
  unfold Core.becomeFollower
  split
  · exact { h with lead := nofun }
  · exact { h with lead := nofun }

theorem appended {e : LogEntry} (he : e ∈ E) :
    Core.Carries E ldr { r with
      log := r.log ++ [e]
      ready := { r.ready with entriesToAppend := r.ready.entriesToAppend ++ [e] } } :=
  { h with
    log := fun f hf => (mem_append.mp hf).elim (h.log f) fun hlast => mem_singleton.mp hlast ▸ he
    append := fun f hf => (mem_append.mp hf).elim (h.append f)
      fun hlast => mem_singleton.mp hlast ▸ he }

end

/-! ## Every operation. -/

theorem becomeLeader (h : r.Carries E ldr) (hldr : ldr r.hard.term = r.config.id)
    (hnoop : ({ term := r.hard.term, index := r.lastIndex + 1 } : LogEntry) ∈ E) :
    r.becomeLeader.Carries E ldr := by
  rw [Core.becomeLeader_eq]
  apply maybeAdvanceCommit
  refine broadcastAppend ?_ rfl
  have happended := h.appended hnoop
  exact { happended with lead := fun _ => hldr }

/-- What the ballot and the registry owe an operation that makes a leader. -/
def Crowns (E : Set LogEntry) (ldr : Nat → NodeId) (r r' : Core) : Prop :=
  r'.role = .leader → r.role ≠ .leader → ldr r'.hard.term = r.config.id ∧
    ({ term := r'.hard.term, index := r.lastIndex + 1 } : LogEntry) ∈ E

section

variable (h : r.Carries E ldr)

include h

theorem startElection (hl : r.role ≠ .leader)
    (hwin : Crowns E ldr r r.startElection) : r.startElection.Carries E ldr := by
  have hcandidate : r.asCandidate.Carries E ldr :=
    { h with lead := fun hl => absurd hl (by
        simp [Core.asCandidate, Core.resetElectionTimer, Core.persistHardState]) }
  rw [Core.startElection_eq] at hwin ⊢
  split
  · rename_i hq
    rw [if_pos hq] at hwin
    have hcrown := hwin (Core.becomeLeader_role _) hl
    rw [Core.becomeLeader_hard] at hcrown
    exact hcandidate.becomeLeader hcrown.1 hcrown.2
  · apply hcandidate.push
    intro m hm
    obtain ⟨peer, hpeer, rfl⟩ := mem_map.mp hm
    have hne : peer ≠ r.asCandidate.config.id := by simpa using (mem_filter.mp hpeer).2
    exact ⟨List.forall_mem_nil _, hne.symm, fun hk => by
      simp [Core.voteRequest] at hk⟩

theorem tick (hwin : Crowns E ldr r r.tick) : r.tick.Carries E ldr := by
  unfold Core.tick at hwin ⊢
  dsimp only at hwin ⊢
  by_cases hl : r.role = .leader
  · rw [if_pos hl]
    split
    · exact broadcastAppend { h with } hl
    · exact { h with }
  · rw [if_neg hl] at hwin ⊢
    split
    · rename_i hdue
      rw [if_pos hdue] at hwin
      exact startElection { h with } hl hwin
    · exact { h with }

theorem propose {command : Bytes} {r' : Core} (hr : r.propose command = some r')
    (he : ({ term := r.hard.term, index := r.lastIndex + 1, command := command } : LogEntry) ∈ E) :
    r'.Carries E ldr := by
  unfold Core.propose at hr
  split at hr
  · cases hr
  · rename_i hl
    cases hr
    apply maybeAdvanceCommit
    have happended := h.appended he
    exact broadcastAppend { happended with } (not_not.mp hl)

theorem startReadIndex {ctx : Nat} {r' : Core}
    (hr : r.startReadIndex ctx = some r') : r'.Carries E ldr := by
  unfold Core.startReadIndex at hr
  split at hr
  · cases hr
  · rename_i hl
    split at hr
    · cases hr
    · split at hr
      · cases hr
        exact { h with }
      · cases hr
        exact broadcastAppend { h with } (not_not.mp hl)

theorem handleRequestVote (hto : r.config.id ≠ m.from_) :
    (r.handleRequestVote m).Carries E ldr := by
  unfold Core.handleRequestVote
  dsimp only
  split
  · refine send ?_ ?_ rfl (by simp)
    · split <;> exact { h with }
    · split <;> exact hto
  · exact h.send hto rfl (by simp)

theorem handleRequestVoteResp (hwin : Crowns E ldr r (r.handleRequestVoteResp m)) :
    (r.handleRequestVoteResp m).Carries E ldr := by
  unfold Core.handleRequestVoteResp at hwin ⊢
  dsimp only at hwin ⊢
  by_cases hrole : r.role ≠ .candidate
  · rw [if_pos hrole]
    exact h
  · rw [if_neg hrole] at hwin ⊢
    split
    · rename_i hq
      rw [if_pos hq] at hwin
      have hcand : r.role = .candidate := not_not.mp hrole
      have hcrown := hwin (Core.becomeLeader_role _) (by rw [hcand]; simp)
      rw [Core.becomeLeader_hard] at hcrown
      exact becomeLeader { h with } hcrown.1 hcrown.2
    · exact { h with }

theorem recordMatch (m : Message) : (r.recordMatch m).Carries E ldr :=
  maybeAdvanceCommit { h with }

theorem handleAppendEntriesResp (hto : r.config.id ≠ m.from_) :
    (r.handleAppendEntriesResp m).Carries E ldr := by
  refine Core.handleAppendEntriesResp_cases m h (fun _ acked => ?_) (fun hl acked next => ?_)
  · have hmatched := recordMatch (r := { r with hbAcked := acked }) { h with } m
    exact { hmatched with }
  · have hsent := sendAppend (r := { r with hbAcked := acked, next_ := next }) { h with } hl hto.symm
    exact { hsent with }

theorem handleInstallSnapshotResp (m : Message) :
    (r.handleInstallSnapshotResp m).Carries E ldr := by
  unfold Core.handleInstallSnapshotResp
  split
  · exact h
  · split
    · exact h.recordMatch m
    · exact h

theorem heard (m : Message) : (r.heard m).Carries E ldr := by
  unfold Core.heard
  split
  · have hstarter := h.becomeFollower r.hard.term m.from_
    exact { hstarter with }
  · exact { h with }

theorem appendEntry {e : LogEntry} (he : e ∈ E) : (r.appendEntry e).Carries E ldr := by
  unfold Core.appendEntry
  split
  · split
    · exact h
    · exact { h with
        log := fun f hf => (mem_append.mp hf).elim (fun hfront => h.log f (mem_of_mem_take hfront))
          fun hlast => mem_singleton.mp hlast ▸ he
        append := fun f hf => (mem_append.mp hf).elim
          (fun hfront => h.append f (mem_filter.mp hfront).1)
          fun hlast => mem_singleton.mp hlast ▸ he }
  · exact h.appended he

theorem foldl_appendEntry {es : List LogEntry} (hes : ∀ e ∈ es, e ∈ E) :
    (es.foldl Core.appendEntry r).Carries E ldr := by
  induction es generalizing r with
  | nil => exact h
  | cons e es ih =>
    exact ih (h.appendEntry (hes e mem_cons_self)) fun f hf => hes f (mem_cons_of_mem e hf)

theorem acceptEntries (m : Message) {resp : Message} (prevIndex prevTerm : Nat)
    {es : List LogEntry} (hes : ∀ e ∈ es, e ∈ E) (hto : r.config.id ≠ resp.to_)
    (hentries : resp.entries = []) (hkind : resp.kind = .appendEntriesResp) :
    (r.acceptEntries m resp prevIndex prevTerm es).Carries E ldr := by
  unfold Core.acceptEntries
  split
  · split
    · exact h.send hto hentries (by simp [hkind])
    · exact h.send hto hentries (by simp [hkind])
  · have hfold := h.foldl_appendEntry hes
    have hid := congrArg Config.id (Core.sameElection_foldl_appendEntry r es).config
    dsimp only
    generalize es.foldl Core.appendEntry r = c at hfold hid ⊢
    have hto' : c.config.id ≠ resp.to_ := by
      rw [hid]
      exact hto
    split
    · rename_i hcommit
      -- the new commit index may be smaller than the old one, but not than the base
      have hemit := hfold.emit (n := min m.commit c.lastIndex)
        (Nat.le_min.mpr ⟨hfold.base_le.trans hcommit.le, Nat.le_add_right _ _⟩)
        (Nat.min_le_right _ _)
      exact hemit.send hto' hentries (by simp [hkind])
    · exact hfold.send hto' hentries (by simp [hkind])

theorem handleAppendEntries (hes : ∀ e ∈ m.entries, e ∈ E)
    (hto : r.config.id ≠ m.from_) : (r.handleAppendEntries m).Carries E ldr := by
  have hstart := h.heard m
  have hid := congrArg Config.id (r.heard_frame m).1
  rw [Core.handleAppendEntries_heard]
  generalize r.heard m = c at hstart hid ⊢
  have hto' : c.config.id ≠ m.from_ := by
    rw [hid]
    exact hto
  split
  · split
    · exact hstart.send hto' rfl (by simp)
    · exact hstart.acceptEntries m _ _ (fun e he => hes e (mem_of_mem_drop he)) hto' rfl rfl
  · exact hstart.acceptEntries m _ _ hes hto' rfl rfl

theorem handleInstallSnapshot (hto : r.config.id ≠ m.from_) :
    (r.handleInstallSnapshot m).Carries E ldr := by
  have hstart := h.heard m
  have hid := congrArg Config.id (r.heard_frame m).1
  rw [Core.handleInstallSnapshot_heard]
  generalize r.heard m = c at hstart hid ⊢
  have hto' : c.config.id ≠ m.from_ := by
    rw [hid]
    exact hto
  split
  · exact hstart.send hto' rfl (by simp)
  · refine send ?_ hto' rfl (by simp)
    exact { hstart with
      log := nofun
      append := nofun
      committed := nofun
      base_le := le_rfl
      commit_le := le_rfl }

theorem step (hm : m.Carries E ldr) (hto : m.to_ = r.config.id)
    (hwin : Crowns E ldr r (r.step m)) : (r.step m).Carries E ldr := by
  have hapart : r.config.id ≠ m.from_ := by
    rw [← hto]
    exact hm.apart.symm
  unfold Core.step at hwin ⊢
  by_cases hstale : m.term < r.hard.term
  · rw [if_pos hstale]
    split
    · exact h.send hapart rfl (by simp)
    · exact h.send hapart rfl (by simp)
    · exact h.send hapart rfl (by simp)
    · exact h
  · rw [if_neg hstale] at hwin ⊢
    dsimp only at hwin ⊢
    generalize hc : (if r.hard.term < m.term then _ else r : Core) = c at hwin ⊢
    have hcarry : c.Carries E ldr ∧ c.config.id = r.config.id ∧ c.lastIndex = r.lastIndex ∧
        (c.role = .candidate → r.role ≠ .leader) := by
      rw [← hc]
      split
      · refine ⟨h.becomeFollower _ _, ?_, ?_, fun hcand => ?_⟩
        · unfold Core.becomeFollower
          split <;> rfl
        · unfold Core.becomeFollower
          split <;> rfl
        · cases (r.becomeFollower_frame _ _).1.symm.trans hcand
      · exact ⟨h, rfl, rfl, fun hcand hl => nomatch hcand.symm.trans hl⟩
    obtain ⟨hcarry, hid, hlast, hrole⟩ := hcarry
    have hapart' : c.config.id ≠ m.from_ := by
      rw [hid]
      exact hapart
    cases hkind : m.kind with
    | requestVote => exact hcarry.handleRequestVote hapart'
    | requestVoteResp =>
      rw [hkind] at hwin
      apply hcarry.handleRequestVoteResp
      intro hl hnl
      -- only a candidate becomes leader here
      have hcand : c.role = .candidate := by
        by_contra hne
        unfold Core.handleRequestVoteResp at hl
        rw [if_pos hne] at hl
        exact hnl hl
      rw [hid, hlast]
      exact hwin hl (hrole hcand)
    | appendEntries => exact hcarry.handleAppendEntries hm.entries hapart'
    | appendEntriesResp => exact hcarry.handleAppendEntriesResp hapart'
    | installSnapshot => exact hcarry.handleInstallSnapshot hapart'
    | installSnapshotResp => exact hcarry.handleInstallSnapshotResp m

theorem compactTo {applied : Nat} (happlied : applied ≤ r.commit)
    (data : Bytes) : (r.compactTo applied data).Carries E ldr := by
  unfold Core.compactTo
  split
  · exact h
  · exact { h with
      log := fun e he => h.log e (mem_of_mem_drop he)
      base_le := happlied }

end

end Core.Carries

/-! ## The leader's log grows. -/

namespace Core

theorem maybeAdvanceCommit_log (r : Core) : r.maybeAdvanceCommit.log = r.log := by
  unfold maybeAdvanceCommit
  split
  · rfl
  · split <;> rfl

theorem maybeAdvanceCommit_lastIndex (r : Core) : r.maybeAdvanceCommit.lastIndex = r.lastIndex := by
  unfold maybeAdvanceCommit
  split
  · rfl
  · split <;> rfl

theorem broadcastAppend_log (r : Core) : r.broadcastAppend.log = r.log := by
  rw [broadcastAppend_eq]
  rfl

theorem broadcastAppend_lastIndex (r : Core) : r.broadcastAppend.lastIndex = r.lastIndex := by
  rw [broadcastAppend_eq]
  rfl

theorem appendLocal_lastIndex (r : Core) (e : LogEntry) :
    (r.appendLocal e).lastIndex = r.lastIndex + 1 := by
  show r.base.lastIndex + (r.log ++ [e]).length = r.base.lastIndex + r.log.length + 1
  rw [length_append, length_singleton]
  omega

theorem becomeLeader_lastIndex (r : Core) : r.becomeLeader.lastIndex = r.lastIndex + 1 := by
  rw [becomeLeader_eq, maybeAdvanceCommit_lastIndex, broadcastAppend_lastIndex]
  exact r.asLeader.appendLocal_lastIndex _

variable {r r' : Core}

theorem propose_lastIndex {command : Bytes} (hr : r.propose command = some r') :
    r'.lastIndex = r.lastIndex + 1 := by
  unfold propose at hr
  split at hr
  · cases hr
  · cases hr
    rw [maybeAdvanceCommit_lastIndex, broadcastAppend_lastIndex]
    exact r.appendLocal_lastIndex _

theorem propose_mem {command : Bytes} (hr : r.propose command = some r') :
    ({ term := r.hard.term, index := r.lastIndex + 1, command := command } : LogEntry) ∈ r'.log := by
  unfold propose at hr
  split at hr
  · cases hr
  · cases hr
    rw [maybeAdvanceCommit_log, broadcastAppend_log]
    exact mem_append_right _ mem_cons_self

theorem startReadIndex_lastIndex {ctx : Nat} (hr : r.startReadIndex ctx = some r') :
    r'.lastIndex = r.lastIndex := by
  unfold startReadIndex at hr
  split at hr
  · cases hr
  · split at hr
    · cases hr
    · split at hr
      · cases hr
        rfl
      · cases hr
        exact broadcastAppend_lastIndex _

/-- The last index of a core that leads after an operation: a leader keeps it, a new leader
adds its no-op. -/
def Extends (r r' : Core) : Prop :=
  r'.role = .leader → if r.role = .leader then r'.lastIndex = r.lastIndex ∧
      r'.hard.term = r.hard.term
    else r'.lastIndex = r.lastIndex + 1

theorem tick_lastIndex (r : Core) : Extends r r.tick := by
  intro hl'
  unfold tick at hl' ⊢
  dsimp only at hl' ⊢
  by_cases hl : r.role = .leader
  · rw [if_pos hl]
    simp only [if_pos hl]
    split
    · exact ⟨broadcastAppend_lastIndex _, congrArg HardState.term (sameElection_broadcastAppend _).hard⟩
    · exact ⟨rfl, rfl⟩
  · rw [if_neg hl] at hl' ⊢
    simp only [if_neg hl]
    split
    · rename_i hdue
      rw [if_pos hdue] at hl'
      rw [startElection_eq] at hl' ⊢
      split
      · exact becomeLeader_lastIndex _
      · rename_i hq
        rw [if_neg hq] at hl'
        exact absurd hl' (by simp [push, asCandidate, resetElectionTimer, persistHardState])
    · rename_i hdue
      rw [if_neg hdue] at hl'
      exact absurd hl' hl

theorem recordMatch_lastIndex (r : Core) (m : Message) :
    (r.recordMatch m).lastIndex = r.lastIndex := maybeAdvanceCommit_lastIndex _

theorem handleAppendEntriesResp_lastIndex (r : Core) (m : Message) :
    (r.handleAppendEntriesResp m).lastIndex = r.lastIndex := by
  apply handleAppendEntriesResp_cases (P := fun r' => r'.lastIndex = r.lastIndex) m rfl
  · intro _ acked
    exact recordMatch_lastIndex { r with hbAcked := acked } m
  · intro _ acked next
    rw [sendAppend_eq]
    rfl

theorem handleInstallSnapshotResp_lastIndex (r : Core) (m : Message) :
    (r.handleInstallSnapshotResp m).lastIndex = r.lastIndex := by
  unfold handleInstallSnapshotResp
  split
  · rfl
  · split
    · exact recordMatch_lastIndex r m
    · rfl

theorem handleRequestVoteResp_lastIndex (r : Core) (m : Message) :
    Extends r (r.handleRequestVoteResp m) := by
  intro hl'
  unfold handleRequestVoteResp at hl' ⊢
  by_cases hrole : r.role ≠ .candidate
  · rw [if_pos hrole] at hl' ⊢
    rw [if_pos hl']
    exact ⟨rfl, rfl⟩
  · rw [if_neg hrole] at hl' ⊢
    have hcand : r.role = .candidate := not_not.mp hrole
    have hnl : r.role ≠ .leader := by
      rw [hcand]
      simp
    rw [if_neg hnl]
    dsimp only at hl' ⊢
    split
    · exact becomeLeader_lastIndex _
    · rename_i hq
      rw [if_neg hq] at hl'
      exact absurd hl' hnl

/-- A node that leads after `Step` has only added to its log. -/
theorem step_lastIndex {m : Message} (halone : r.role = .leader → m.term = r.hard.term →
      ¬ (m.kind = .appendEntries ∨ m.kind = .installSnapshot)) : Extends r (r.step m) := by
  intro hl'
  unfold step at hl' ⊢
  by_cases hstale : m.term < r.hard.term
  · rw [if_pos hstale] at hl' ⊢
    -- a refusal at most
    have hl : r.role = .leader := by
      split at hl' <;> exact hl'
    rw [if_pos hl]
    split <;> exact ⟨rfl, rfl⟩
  · rw [if_neg hstale] at hl' ⊢
    dsimp only at hl' ⊢
    by_cases hnew : r.hard.term < m.term
    · -- a newer term leaves a follower
      rw [if_pos hnew] at hl'
      exact absurd hl' (handle_follower (r.becomeFollower_frame _ _).1)
    · rw [if_neg hnew] at hl' ⊢
      have hterm : m.term = r.hard.term := by omega
      generalize hkind : m.kind = kind at hl' ⊢
      cases kind with
      | requestVote =>
        obtain ⟨hrole, hlast, hsame⟩ := r.handleRequestVote_frame m
        rw [if_pos (hrole.symm.trans hl')]
        exact ⟨hlast, hsame⟩
      | requestVoteResp =>
        exact r.handleRequestVoteResp_lastIndex m hl'
      | appendEntries =>
        exact absurd (.inl hkind) (halone (handleAppendEntries_leader hl') hterm)
      | appendEntriesResp =>
        have hsame := sameElection_handleAppendEntriesResp r m
        rw [if_pos (hsame.role.symm.trans hl')]
        exact ⟨r.handleAppendEntriesResp_lastIndex m, congrArg HardState.term hsame.hard⟩
      | installSnapshot =>
        exact absurd (.inr hkind) (halone (handleInstallSnapshot_leader hl') hterm)
      | installSnapshotResp =>
        have hsame := sameElection_handleInstallSnapshotResp r m
        rw [if_pos (hsame.role.symm.trans hl')]
        exact ⟨r.handleInstallSnapshotResp_lastIndex m, congrArg HardState.term hsame.hard⟩

theorem compactTo_lastIndex (r : Core) (applied : Nat) (data : Bytes) :
    r.lastIndex ≤ (r.compactTo applied data).lastIndex := by
  unfold compactTo
  split
  · exact le_rfl
  · show r.base.lastIndex + r.log.length ≤
      applied + (r.log.drop (applied - r.base.lastIndex)).length
    rw [length_drop]
    omega

end Core

/-! ## The registry. -/

/-- Who voted and led, and every entry ever made. -/
structure Ledger where
  ballot : Ballot := {}
  made : Set LogEntry := ∅

/-- Node `p` may register entries of terms that it leads. -/
structure Ledger.Moves (p : NodeId) (g g' : Ledger) : Prop where
  ballot : g.ballot.Moves p g'.ballot
  made : g.made ⊆ g'.made
  mine : ∀ e ∈ g'.made, e ∉ g.made → g'.ballot.ldr e.term = p

structure Ledger.Global (M : Membership) (g : Ledger) : Prop where
  won : g.ballot.Won M
  led : ∀ e ∈ g.made, g.ballot.ldr e.term ≠ 0
  unique : ∀ e ∈ g.made, ∀ f ∈ g.made, e.index = f.index → e.term = f.term → e = f

structure MintNode (M : Membership) (g : Ledger) (p : NodeId) (d : Storage) (r : Core) : Prop where
  vote : VoteNode M g.ballot p d r
  carries : r.Carries g.made g.ballot.ldr
  stored : ∀ e ∈ d.entries, e ∈ g.made
  newest : r.role = .leader → ∀ e ∈ g.made, e.term = r.hard.term → e.index ≤ r.lastIndex

structure MintMsg (M : Membership) (g : Ledger) (m : Message) : Prop where
  vote : VoteMsg M g.ballot m
  carries : m.Carries g.made g.ballot.ldr

theorem Storage.mem_persist {d : Storage} {ready : Ready} {e : LogEntry}
    (h : e ∈ (d.persist ready).entries) : e ∈ d.entries ∨ e ∈ ready.entriesToAppend := by
  unfold persist at h
  dsimp only at h
  have happend : ∀ c : Storage, e ∈ (if ready.hardStateChanged = true
      then (c.append ready.entriesToAppend).saveHardState ready.hardState
      else c.append ready.entriesToAppend : Storage).entries →
      e ∈ c.entries ∨ e ∈ ready.entriesToAppend := by
    intro c hc
    split at hc <;> exact mem_append.mp hc
  have hcut : ∀ c : Storage, e ∈ (if ready.truncateFrom ≠ 0
      then c.truncateFrom ready.truncateFrom else c : Storage).entries → e ∈ c.entries := by
    intro c hc
    split at hc
    · exact (List.rdropWhile_prefix _ _).subset hc
    · exact hc
  refine (happend _ h).imp_left fun hold => ?_
  -- a snapshot leaves no entries
  have hsaved := hcut _ hold
  split at hsaved
  · cases hsaved
  · exact hsaved

section

variable {M : Membership} {g g' : Ledger} {p q : NodeId} {d : Storage} {r r' : Core} {m : Message}

theorem MintMsg.frame (hmoves : g.Moves p g') (h : MintMsg M g m) : MintMsg M g' m where
  vote := h.vote.mono hmoves.ballot
  carries := (h.carries.mono hmoves.made).ballot hmoves.ballot.ldr_keep
    (Membership.ne_zero h.vote.from_mem)

variable {B' : Ballot} {e : Event} {s : Cluster}

theorem Core.Carries.ballot {E : Set LogEntry} {B : Ballot} (h : r.Carries E B.ldr)
    (hkeep : ∀ t, B.ldr t ≠ 0 → B'.ldr t = B.ldr t) (hfrom : ∀ m ∈ r.ready.messages, m.from_ ≠ 0)
    (hid : r.config.id ≠ 0) : r.Carries E B'.ldr :=
  { h with
    messages := fun m hm => (h.messages m hm).ballot hkeep (hfrom m hm)
    lead := fun hl => by
      have heq := h.lead hl
      rw [hkeep _ (by rw [heq]; exact hid)]
      exact heq }

theorem MintNode.later (h : MintNode M g p d r) (g' : Ledger)
    (hkeep : ∀ t, g.ballot.ldr t ≠ 0 → g'.ballot.ldr t = g.ballot.ldr t)
    (hmade : g.made ⊆ g'.made) : r.Carries g'.made g'.ballot.ldr := by
  refine (h.carries.mono hmade).ballot hkeep ?_ ?_
  · intro m hm
    exact Membership.ne_zero (h.vote.msgs m hm).from_mem
  · rw [h.vote.valid.1]
    exact Membership.ne_zero h.vote.mem

theorem MintNode.frame (hmoves : g.Moves p g') (hq : q ≠ p) (h : MintNode M g q d r) :
    MintNode M g' q d r where
  vote := h.vote.frame hmoves.ballot hq
  carries := h.later g' hmoves.ballot.ldr_keep hmoves.made
  stored e he := hmoves.made (h.stored e he)
  newest hl e he ht := by
    by_cases hold : e ∈ g.made
    · exact h.newest hl e hold ht
    · -- a new entry of the term that `q` leads would make `p` its leader
      have hldr := hmoves.mine e he hold
      rw [ht, (h.vote.frame hmoves.ballot hq).lead hl] at hldr
      exact absurd hldr hq

theorem MintNode.drained (h : MintNode M g p d r) :
    MintNode M g p (d.persist r.ready) { r with ready := {} } where
  vote := (electionInvariant M).drained h.vote
  carries := { h.carries with
    append := nofun
    committed := nofun
    messages := nofun }
  stored e he := (Storage.mem_persist he).elim (h.stored e) (h.carries.append e)
  newest := h.newest

def mintInvariant (M : Membership) : LocalInvariant Ledger where
  Moves := Ledger.Moves
  Global := Ledger.Global M
  NodeOk := MintNode M
  MsgOk := MintMsg M
  node_frame := MintNode.frame
  msg_frame := MintMsg.frame
  drained := MintNode.drained
  pending h m hm := ⟨h.vote.msgs m hm, h.carries.messages m hm⟩

/-! ## Steps and runs. -/

/-- What an operation registers: at most one entry, of the term that the node leads afterwards and
right behind its log. -/
structure Mints (r r' : Core) (new : Set LogEntry) : Prop where
  single : new.Subsingleton
  at_end : ∀ e ∈ new, r'.role = .leader ∧ e.term = r'.hard.term ∧ e.index = r.lastIndex + 1
  grows : r'.role = .leader → r.role = .leader →
    r'.hard.term = r.hard.term ∧ r.lastIndex ≤ r'.lastIndex
  holds : new.Nonempty → r.lastIndex + 1 ≤ r'.lastIndex

theorem MintNode.mint {new : Set LogEntry} (hG : g.Global M) (h : MintNode M g p d r)
    (hmoves : g.ballot.Moves p B') (hwon : B'.Won M) (hvote : VoteNode M B' p d r')
    (hmints : Mints r r' new)
    (hopen : r'.role = .leader → r.role ≠ .leader → g.ballot.ldr r'.hard.term = 0)
    (hcarries : r'.Carries (g.made ∪ new) B'.ldr) :
    g.Moves p ⟨B', g.made ∪ new⟩ ∧ Ledger.Global M ⟨B', g.made ∪ new⟩ ∧
      MintNode M ⟨B', g.made ∪ new⟩ p d r' := by
  -- the old entries of the term lie inside the old log
  have hold : r'.role = .leader → ∀ e ∈ g.made, e.term = r'.hard.term →
      r.role = .leader ∧ e.index ≤ r.lastIndex := by
    intro hl e he ht
    by_cases hr : r.role = .leader
    · exact ⟨hr, h.newest hr e he (ht.trans (hmints.grows hl hr).1)⟩
    · have hzero := hopen hl hr
      rw [← ht] at hzero
      exact absurd hzero (hG.led e he)
  have hfresh : ∀ e ∈ g.made, ∀ f ∈ new, e.index = f.index → e.term = f.term → e = f := by
    intro e he f hf hindex hterm
    obtain ⟨hl, ht, hi⟩ := hmints.at_end f hf
    have hle := (hold hl e he (hterm.trans ht)).2
    omega
  have hldr : ∀ e ∈ new, B'.ldr e.term = p := by
    intro e he
    obtain ⟨hl, ht, _⟩ := hmints.at_end e he
    rw [ht]
    exact hvote.lead hl
  refine ⟨⟨hmoves, Set.subset_union_left, ?_⟩, ⟨hwon, ?_, ?_⟩, ⟨hvote, hcarries, ?_, ?_⟩⟩
  · intro e he hnew
    exact hldr e (he.resolve_left hnew)
  · intro e he
    rcases he with he | he
    · rw [hmoves.ldr_keep _ (hG.led e he)]
      exact hG.led e he
    · rw [hldr e he]
      exact Membership.ne_zero h.vote.mem
  · intro e he f hf hindex hterm
    rcases he with he | he <;> rcases hf with hf | hf
    · exact hG.unique e he f hf hindex hterm
    · exact hfresh e he f hf hindex hterm
    · exact (hfresh f hf e he hindex.symm hterm.symm).symm
    · exact hmints.single he hf
  · exact fun e he => .inl (h.stored e he)
  · intro hl e he ht
    rcases he with he | he
    · obtain ⟨hr, hle⟩ := hold hl e he ht
      exact hle.trans (hmints.grows hl hr).2
    · rw [(hmints.at_end e he).2.2]
      exact hmints.holds ⟨e, he⟩

def noopOf (r r' : Core) : Set LogEntry :=
  {e | r'.role = .leader ∧ r.role ≠ .leader ∧
    e = { term := r'.hard.term, index := r.lastIndex + 1 }}

theorem mints_noop (h : Core.Extends r r') : Mints r r' (noopOf r r') where
  single e he f hf := he.2.2.trans hf.2.2.symm
  at_end e he := by
    obtain ⟨hl, _, rfl⟩ := he
    exact ⟨hl, rfl, rfl⟩
  grows hl' hl := by
    have hext := h hl'
    rw [if_pos hl] at hext
    exact ⟨hext.2, hext.1.ge⟩
  holds hne := by
    obtain ⟨e, hl', hnl, _⟩ := hne
    have hext := h hl'
    rw [if_neg hnl] at hext
    exact hext.ge

theorem mints_propose {command : Bytes} (hr : r.propose command = some r') :
    Mints r r' {{ term := r.hard.term, index := r.lastIndex + 1, command := command }} := by
  have hsame := Core.sameElection_propose hr
  have hlast := Core.propose_lastIndex hr
  have hl : r.role = .leader := by
    unfold Core.propose at hr
    split at hr
    · cases hr
    · rename_i hl
      exact not_not.mp hl
  refine ⟨Set.subsingleton_singleton, ?_, fun _ _ => ?_, fun _ => hlast.ge⟩
  · intro e he
    rw [Set.mem_singleton_iff.mp he, hsame.hard, hsame.role]
    exact ⟨hl, rfl, rfl⟩
  · rw [hsame.hard, hlast]
    exact ⟨rfl, Nat.le_succ _⟩

theorem MintNode.acts (hG : g.Global M) (hmsg : ∀ m ∈ s.net, MintMsg M g m)
    (h : MintNode M g p (s.nodes p).storage (s.nodes p).raft) (hact : s.Acts e p r') :
    ∃ g', g.Moves p g' ∧ g'.Global M ∧ MintNode M g' p (s.nodes p).storage r' := by
  obtain ⟨B', hmoves, hwon, hvote⟩ := h.vote.acts hG.won (fun m hm => (hmsg m hm).vote) hact
  have hopen := h.vote.open_before hact hmoves hvote
  have hid : (s.nodes p).raft.config.id = p := h.vote.valid.1
  -- the core as it was, under the new ballot and with room for what is made
  have hcarries : ∀ new : Set LogEntry, (s.nodes p).raft.Carries (g.made ∪ new) B'.ldr :=
    fun new => h.later ⟨B', g.made ∪ new⟩ hmoves.ldr_keep Set.subset_union_left
  have hcrowns : Core.Carries.Crowns (g.made ∪ noopOf (s.nodes p).raft r') B'.ldr
      (s.nodes p).raft r' := by
    intro hl hnl
    rw [hid]
    exact ⟨hvote.lead hl, .inr ⟨hl, hnl, rfl⟩⟩
  cases hact with
  | tick =>
    exact ⟨_, h.mint hG hmoves hwon hvote (mints_noop (Core.tick_lastIndex _)) hopen
      ((hcarries _).tick hcrowns)⟩
  | deliver k m hm =>
    have hmem := hmsg m (mem_of_getElem? hm)
    have hlater := (hmem.carries.mono (Set.subset_union_left
      (t := noopOf (s.nodes m.to_).raft ((s.nodes m.to_).raft.step m)))).ballot hmoves.ldr_keep
      (Membership.ne_zero hmem.vote.from_mem)
    have halone : (s.nodes m.to_).raft.role = .leader → m.term = (s.nodes m.to_).raft.hard.term →
        ¬ (m.kind = .appendEntries ∨ m.kind = .installSnapshot) := by
      intro hl ht hk
      have hfrom := hmem.carries.from_ldr hk
      rw [ht, h.vote.lead hl] at hfrom
      exact hmem.carries.apart hfrom.symm
    exact ⟨_, h.mint hG hmoves hwon hvote (mints_noop (Core.step_lastIndex halone)) hopen
      ((hcarries _).step hlater hid.symm hcrowns)⟩
  | propose _ command r' hr =>
    exact ⟨_, h.mint hG hmoves hwon hvote (mints_propose hr) hopen
      ((hcarries _).propose hr (.inr rfl))⟩
  | readIndex _ ctx r' _ hr =>
    have hsame := Core.sameElection_startReadIndex hr
    have hext : Core.Extends (s.nodes p).raft r' := by
      intro hl
      rw [if_pos (hsame.role.symm.trans hl)]
      exact ⟨Core.startReadIndex_lastIndex hr, congrArg HardState.term hsame.hard⟩
    exact ⟨_, h.mint hG hmoves hwon hvote (mints_noop hext) hopen ((hcarries _).startReadIndex hr)⟩

theorem MintNode.compact (h : MintNode M g p d r) {applied : Nat} (happlied : applied ≤ r.commit)
    (data : Bytes) (saved : Bool) :
    MintNode M g p (Cluster.compactNode ⟨d, r⟩ applied data saved).storage
      (Cluster.compactNode ⟨d, r⟩ applied data saved).raft where
  vote := h.vote.compact applied data saved
  carries := h.carries.compactTo happlied data
  stored e he := by
    cases saved with
    | false => exact h.stored e he
    | true => exact h.stored e ((List.dropWhile_sublist _).subset he)
  newest hl e he ht := by
    have hsame := Core.sameElection_compactTo r applied data
    have hle := h.newest (hsame.role.symm.trans hl) e he
      (ht.trans (congrArg HardState.term hsame.hard))
    exact hle.trans (r.compactTo_lastIndex applied data)

theorem MintNode.restart (h : MintNode M g p d r) (hrest : r.ready = {}) {cfg : Config}
    (hcfg : cfg.Valid M p) :
    MintNode M g p (Cluster.restartNode ⟨d, r⟩ cfg).storage
      (Cluster.restartNode ⟨d, r⟩ cfg).raft where
  vote := h.vote.restart hrest hcfg
  carries := {
    log := h.stored
    append := nofun
    committed := nofun
    messages := nofun
    lead := fun hl => absurd hl (by simp [Cluster.restartNode, Core.start, Core.resetElectionTimer])
    base_le := le_rfl
    commit_le := le_rfl }
  stored := h.stored
  newest hl := absurd hl (by simp [Cluster.restartNode, Core.start, Core.resetElectionTimer])

/-- Every entry that an event emits is in the registry. -/
theorem mint_step {s' : Cluster} {o : Output} (h : (mintInvariant M).Holds M g s)
    (hstep : s.step M e = some (s', o)) :
    ∃ g', g.made ⊆ g'.made ∧ (∀ x ∈ o.ready.committed, x ∈ g'.made) ∧
      (mintInvariant M).Holds M g' s' := by
  obtain ⟨n, hn, hdid⟩ := Cluster.step_cases hstep
  have hnode : MintNode M g n (s.nodes n).storage (s.nodes n).raft := h.node n hn
  cases hdid with
  | op r hact =>
    obtain ⟨g', hmoves, hglobal, hnode'⟩ := hnode.acts h.global h.msg hact
    exact ⟨g', hmoves.made, hnode'.carries.committed, h.drain hmoves hglobal hnode'⟩
  | compact applied data saved he hle =>
    refine ⟨g, Set.Subset.rfl, nofun, h.setNode ?_ (hnode.compact hle data saved)⟩
    rw [Cluster.compactNode_ready]
    exact h.rest n hn
  | restart cfg he hcfg =>
    exact ⟨g, Set.Subset.rfl, nofun, h.setNode rfl (hnode.restart (h.rest n hn) hcfg)⟩

theorem mint_boot {cfg : NodeId → Config} (hcfg : ∀ n ∈ M.peers, (cfg n).Valid M n) :
    (mintInvariant M).Holds M {} (boot cfg) where
  global := ⟨fun _ ht => absurd rfl ht, fun _ he => he.elim, fun _ he => he.elim⟩
  node p hp := {
    vote := (election_boot hcfg).node p hp
    carries := {
      log := nofun
      append := nofun
      committed := nofun
      messages := nofun
      lead := nofun
      base_le := le_rfl
      commit_le := le_rfl }
    stored := nofun
    newest := nofun }
  rest _ _ := rfl
  msg _ hm := absurd hm not_mem_nil

end

end Flotilla.Raft
