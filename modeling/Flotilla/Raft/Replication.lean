/-
  Raft.Replication — leaders keep the log invariant.

  A leader's append is the move `extend`.  What it sends is a segment, or a
  committed prefix, of its log; the index `MaybeAdvanceCommit` picks is one a
  majority has acknowledged.  `LogOk` is what every operation owes: it is
  stated with the commit index at the start of the operation, so that the
  steps of one operation compose.
-/
import Flotilla.Raft.LogElection

namespace Flotilla.Raft

open UnorderedMap Core
open ReplicatedLog

section

variable {ρ : Regime} {M : Membership} {ldr : Nat → NodeId} {γ γ' : Ghost} {p q : NodeId}
  {d : Storage} {r r' : Core} {m : Message}

/-! ## A node with a new log. -/

theorem LogNode.rewrite (hG : γ.Global M ldr) (hmoves : γ.Moves ldr p γ')
    (h : LogNode ρ M ldr γ p d r) (hcfg : r'.config = r.config) (hhard : r'.hard = r.hard)
    (hterm : γ'.hist.term p = γ.hist.term p)
    (hvoted : γ'.hist.voted r.hard.term p → γ.hist.voted r.hard.term p)
    (hidx : Indexed (γ'.hist.log p)) (hwin : Window r'.base r'.log (γ'.hist.log p))
    (hdisk : OnDisk d r' (γ'.hist.log p)) (hcand : r'.role ≠ .candidate)
    (hlead : r'.role = .leader → LeadOk M ldr γ' p r')
    (hcommit : ρ = .guarded → CommitOk M γ' p r')
    (hplain : ρ = .uncompacted → r'.base.lastIndex = 0)
    (hmsgs : r'.ready.messages = r.ready.messages)
    (hemitted : ρ = .guarded → ∀ e ∈ r'.ready.committed, Emittable M γ' e) :
    LogNode ρ M ldr γ' p d r' where
  mem := h.mem
  valid := by rw [hcfg]; exact h.valid
  term := by rw [hterm, hhard]; exact h.term
  indexed := hidx
  window := hwin
  sorted := h.sorted
  disk := hdisk
  backed hv := by
    rw [hhard] at hv ⊢
    obtain ⟨hle, hback⟩ := h.backed hv
    rw [hmoves.clog_keep _ _ hle]
    exact ⟨hle.trans (hmoves.ext.term _), hback.mono hmoves.ext⟩
  spent hv := by
    rw [hhard] at hv ⊢
    exact h.spent (hvoted hv)
  cand hc := absurd hc hcand
  lead := hlead
  commit := hcommit
  plain := hplain
  msgs m hm := by
    rw [hmsgs] at hm
    exact (h.msgs m hm).mono hG hmoves
  emitted := hemitted

/-- What an operation owes for the log: a later ghost state that represents the
result; the commit index of a leader only moves to a committed index; and, in a
guarded run, it never moves back and nothing up to it is truncated. -/
def LogOk (ρ : Regime) (M : Membership) (ldr : Nat → NodeId) (γ : Ghost) (p : NodeId)
    (d : Storage) (c₀ : Nat) (r : Core) : Prop :=
  ∃ γ', γ.Moves ldr p γ' ∧ γ'.Global M ldr ∧ LogNode ρ M ldr γ' p d r ∧
    (r.role = .leader → r.commit ≠ c₀ →
      Committed LogEntry.term M.members γ'.hist r.hard.term r.commit) ∧
    (ρ = .guarded → c₀ ≤ r.commit ∧
      (r.ready.truncateFrom = 0 ∨ c₀ < r.ready.truncateFrom))

variable {c₀ k : Nat}

theorem LogOk.after {γ₀ : Ghost} (hmoves : γ₀.Moves ldr p γ) (h : LogOk ρ M ldr γ p d c₀ r) :
    LogOk ρ M ldr γ₀ p d c₀ r := by
  obtain ⟨γ', hmoves', hrest⟩ := h
  exact ⟨γ', hmoves.trans hmoves', hrest⟩

theorem LogNode.ok (h : LogNode ρ M ldr γ p d r) (hG : γ.Global M ldr) (hcommit : r.commit = c₀)
    (htf : r.ready.truncateFrom = 0) : LogOk ρ M ldr γ p d c₀ r :=
  ⟨γ, .refl ldr p γ, hG, h, fun _ hne => absurd hcommit hne, fun _ => ⟨hcommit.ge, .inl htf⟩⟩

/-! ## The leader appends. -/

/-- The leader appends to its own log. -/
theorem LogNode.appendLocal (hG : γ.Global M ldr) (h : LogNode ρ M ldr γ p d r)
    (hl : r.role = .leader) {e : LogEntry} (he : e.term = r.hard.term)
    (hi : e.index = r.lastIndex + 1) :
    ∃ γ', γ.Moves ldr p γ' ∧ γ'.Global M ldr ∧ LogNode ρ M ldr γ' p d (r.appendLocal e) := by
  have hlead := h.lead hl
  have hlogt : γ.hist.log p = γ.hist.llog (γ.hist.term p) := by rw [h.term]; exact hlead.log_eq
  have hledt : γ.hist.led (γ.hist.term p) := by rw [h.term]; exact hlead.led
  have hackt : γ.hist.ack (γ.hist.term p) p ≤ (γ.hist.log p).length := by
    rw [hlogt]; exact hG.sound.ack_le _ _
  have hidx : Indexed (γ.hist.log p ++ [e]) := h.indexed.concat (by rw [hi, h.window.lastIndex_eq])
  obtain ⟨γ', hγ'⟩ : ∃ γ', γ' = { γ with hist := γ.hist.extend p e } := ⟨_, rfl⟩
  have hlog : γ'.hist.log p = γ.hist.log p ++ [e] := by rw [hγ']; exact update_self ..
  have hllog : γ'.hist.llog r.hard.term = γ.hist.log p ++ [e] := by
    rw [hγ', ← h.term]; exact update_self ..
  have hack : γ'.hist.ack r.hard.term p = (γ.hist.log p).length + 1 := by
    rw [hγ', ← h.term]; exact if_pos ⟨rfl, rfl⟩
  have hmoves : γ.Moves ldr p γ' := by
    rw [hγ']
    exact {
      ext := History.extends_extend hlogt hackt
      log_other := fun _ hq => update_of_ne hq ..
      term_other := fun _ _ => rfl
      voted_other := fun _ _ _ hv => hv
      llog_other := fun t _ => by
        by_cases ht : t = γ.hist.term p
        · right
          rw [ht, h.term]
          exact hlead.is_ldr
        · exact .inl (update_of_ne ht ..)
      clog_keep := fun _ _ _ => rfl }
  have hglobal : γ'.Global M ldr := by
    refine ⟨?_, ?_, ?_⟩
    · rw [hγ']
      exact hG.sound.extend hledt hlogt (by rw [he, h.term])
    · rw [hγ']
      exact hG.led_ldr
    · intro t ht
      by_cases heq : t = r.hard.term
      · rw [heq, hllog]
        exact hidx
      · have hsame : γ'.hist.llog t = γ.hist.llog t := by
          rw [hγ']
          exact update_of_ne (by rw [h.term]; exact heq) ..
        rw [hsame]
        rw [hγ'] at ht
        exact hG.indexed t ht
  have hall : (γ.hist.log p).take (γ.hist.log p).length = γ.hist.log p := take_length
  refine ⟨γ', hmoves, hglobal, ?_⟩
  refine h.rewrite hG hmoves rfl rfl (by rw [hγ']; rfl) (fun hv => by rw [hγ'] at hv; exact hv)
    (by rw [hlog]; exact hidx) ?_ ?_ ?_ ?_ ?_ h.plain rfl
    (fun hρ e' he' => (h.emitted hρ e' he').mono hG hmoves.ext)
  · have hw := h.window.cut_concat (e := e) h.window.le le_rfl
    rw [hall, ← h.window.log_eq] at hw
    rw [hlog]
    exact hw
  · have hw := h.disk.window.cut_concat (e := e) h.disk.window.le le_rfl
    rw [hall, ← h.disk.window.log_eq] at hw
    refine ⟨?_, h.disk.le⟩
    show Window _ (d.pendingEntries _ _ (r.ready.entriesToAppend ++ [e])) _
    rw [Storage.pendingEntries_append, hlog]
    exact hw
  · exact fun hc => nomatch hl.symm.trans hc
  · intro _
    exact {
      led := hmoves.ext.led _ hlead.led
      is_ldr := hlead.is_ldr
      log_eq := hlog.trans hllog.symm
      matched := fun q hq => by
        by_cases hqp : q = p
        · have hm : (r.appendLocal e).match_.getD q 0 = r.lastIndex + 1 := by
            rw [hqp, ← h.valid.1]
            exact getD_insert_self _ _ _ _
          rw [hm, hqp, h.window.lastIndex_eq]
          show _ ≤ γ'.hist.ack r.hard.term p
          rw [hack]
        · have hm : (r.appendLocal e).match_.getD q 0 = r.match_.getD q 0 :=
            getD_insert_of_ne _ _ _ (by rw [h.valid.1]; exact hqp)
          rw [hm]
          exact (hlead.matched q hq).trans (hmoves.ext.ack _ _)
      next := fun q hq => by
        obtain ⟨hpos, hle⟩ := hlead.next q hq
        refine ⟨hpos, hle.trans ?_⟩
        exact Nat.succ_le_succ (hmoves.ext.llog _ hlead.led).length_le }
  · intro hρ
    have hc := h.commit hρ
    exact {
      base_le := hc.base_le
      emitted_eq := hc.emitted_eq
      le_length := by
        rw [hlog, length_append]
        exact hc.le_length.trans (Nat.le_add_right _ _)
      committed := by
        rw [hlog]
        show CommittedBy _ _ _ r.hard.term (List.take r.commit _)
        rw [take_append_of_le_length hc.le_length]
        exact hc.committed.mono hG.sound hmoves.ext le_rfl }

/-! ## The leader's messages. -/

theorem takeBatch_prefix_self (maxEntries maxBytes n bytes : Nat) (es : List LogEntry) :
    Core.takeBatch maxEntries maxBytes n bytes es <+: es := by
  induction es generalizing n bytes with
  | nil => exact prefix_rfl
  | cons e es ih =>
    unfold takeBatch
    split
    · exact nil_prefix
    · split
      · exact nil_prefix
      · exact (List.prefix_cons_inj e).mpr (ih _ _)

/-- What the leader sends stands in its log. -/
theorem appendMessage_logMsg (h : LogNode ρ M ldr γ p d r) (hl : r.role = .leader)
    {peer : NodeId} (hpeer : peer ∈ M.peers) (hne : peer ≠ p) :
    LogMsg ρ M ldr γ (r.appendMessage peer) := by
  have hlead := h.lead hl
  have hid : r.config.id = p := h.valid.1
  obtain ⟨hpos, hnext⟩ := hlead.next peer hpeer
  have hmem : r.config.id ∈ M.peers := by rw [hid]; exact h.mem
  have hfrom : r.config.id ≠ peer := by rw [hid]; exact hne.symm
  have hterm : r.hard.term ≤ γ.hist.term r.config.id := by rw [hid]; exact h.term.ge
  have hldr : ldr r.hard.term = r.config.id := by rw [hid]; exact hlead.is_ldr
  unfold Core.appendMessage
  dsimp only
  split
  · -- the peer's next entry is compacted away
    cases ρ with
    | uncompacted =>
      have hz := h.plain rfl
      omega
    | guarded =>
        have hc := h.commit rfl
        refine {
          from_mem := hmem
          from_ne := hfrom
          term_le := hterm
          request := nofun
          granted := nofun
          append := nofun
          acked := nofun
          snapshot := fun _ => {
            guarded := rfl
            led := hlead.led
            from_ldr := hldr
            snap_le := ?_
            snap_term := ?_
            committed := ?_ } }
      -- base, base term and base contents are those of the leader's log
        · show r.base.lastIndex ≤ (γ.hist.llog r.hard.term).length
          rw [← hlead.log_eq]
          exact h.window.le
        · show r.base.lastTerm = termOf LogEntry.term (γ.hist.llog r.hard.term) r.base.lastIndex
          rw [← hlead.log_eq]
          exact h.window.term_eq
        · show CommittedBy _ _ _ r.hard.term ((γ.hist.llog r.hard.term).take r.base.lastIndex)
          rw [← hlead.log_eq]
          exact hc.committed.restrict (take_prefix_take_left hc.base_le)
  · rename_i hnot
    have hlog := hlead.log_eq
    rw [← hlog] at hnext
    refine {
      from_mem := hmem
      from_ne := hfrom
      term_le := hterm
      request := nofun
      granted := nofun
      append := fun _ => {
        led := hlead.led
        from_ldr := hldr
        prev_le := ?_
        prev_term := ?_
        entries := ?_
        commit := fun hρ => ?_ }
      acked := nofun
      snapshot := nofun }
    · show _ - 1 ≤ (γ.hist.llog r.hard.term).length
      rw [← hlog]
      omega
    · show r.termAt _ = termOf LogEntry.term (γ.hist.llog r.hard.term) _
      rw [← hlog]
      exact h.window.termAt_eq (by omega) (by omega)
    · show takeBatch _ _ 0 0 _ <+: (γ.hist.llog r.hard.term).drop _
      rw [← hlog]
      have hdrop : r.log.drop (r.next_.getD peer 0 - r.base.lastIndex - 1) =
          (γ.hist.log p).drop (r.next_.getD peer 0 - 1) := by
        rw [h.window.log_eq, drop_drop]
        congr 1
        omega
      rw [hdrop]
      exact takeBatch_prefix_self _ _ _ _ _
    · have hc := h.commit hρ
      show r.commit ≤ (γ.hist.llog r.hard.term).length ∧
        CommittedBy _ _ _ r.hard.term ((γ.hist.llog r.hard.term).take r.commit)
      rw [← hlog]
      exact ⟨hc.le_length, hc.committed⟩

theorem LogNode.broadcastAppend (h : LogNode ρ M ldr γ p d r) (hl : r.role = .leader) :
    LogNode ρ M ldr γ p d r.broadcastAppend := by
  rw [broadcastAppend_eq]
  refine h.push ?_
  intro m hm
  obtain ⟨peer, hpeer, rfl⟩ := mem_map.mp hm
  obtain ⟨hin, hne⟩ := mem_filter.mp hpeer
  have hne' : peer ≠ p := by
    rw [← h.valid.1]
    exact of_decide_eq_true hne
  exact appendMessage_logMsg h hl ((mem_peers_iff h.valid).mp hin) hne'

/-! ## Commit indices. -/

/-- The commit index comes from an entry of the term that enough peers match. -/
theorem Core.commitIndexFrom_spec {n : Nat} (h : r.commitIndexFrom n = some k) :
    r.commit < k ∧ k ≤ n ∧ r.termAt k = r.hard.term ∧ r.quorum ≤ r.matchCount k := by
  induction n with
  | zero => cases h
  | succ n ih =>
    unfold commitIndexFrom at h
    split at h
    · cases h
    · rename_i hlt
      split at h
      · cases h
      · rename_i hterm
        split at h
        · rename_i hq
          cases h
          exact ⟨by omega, le_rfl, not_not.mp hterm, hq⟩
        · obtain ⟨hc, hle, ht, hq⟩ := ih h
          exact ⟨hc, by omega, ht, hq⟩

theorem LogNode.majority_of_matchCount (h : LogNode ρ M ldr γ p d r) (hl : r.role = .leader)
    (hq : r.quorum ≤ r.matchCount k) :
    ∃ Q, Majority M.members Q ∧ ∀ v ∈ Q, k ≤ γ.hist.ack r.hard.term v := by
  have hlead := h.lead hl
  refine ⟨(r.config.peers.filter (fun q => decide (k ≤ r.match_.getD q 0))).toFinset,
    majority_of_nodup ?_ ?_ ?_, ?_⟩
  · exact (h.valid.2.nodup_iff.mpr M.nodup).filter _
  · intro v hv
    exact (mem_peers_iff h.valid).mp (mem_of_mem_filter hv)
  · rw [← List.countP_eq_length_filter, ← quorum_eq h.valid]
    exact hq
  · intro v hv
    obtain ⟨hin, hk⟩ := mem_filter.mp (List.mem_toFinset.mp hv)
    have hv' : v ∈ M.peers := (mem_peers_iff h.valid).mp hin
    exact (of_decide_eq_true hk).trans (hlead.matched v hv')

/-- What the leader counts as committed is committed. -/
theorem LogNode.committed_of_commitIndexFrom (h : LogNode ρ M ldr γ p d r) (hl : r.role = .leader)
    (hk : r.commitIndexFrom r.lastIndex = some k) :
    Committed LogEntry.term M.members γ.hist r.hard.term k ∧ k ≤ (γ.hist.log p).length := by
  obtain ⟨hc, hle, hterm, hq⟩ := commitIndexFrom_spec hk
  have hlead := h.lead hl
  have hlen : k ≤ (γ.hist.log p).length := by rw [← h.window.lastIndex_eq]; exact hle
  have hbase : r.base.lastIndex ≤ k := by
    cases ρ with
    | uncompacted => rw [h.plain rfl]; exact Nat.zero_le _
    | guarded => exact (h.commit rfl).base_le.trans hc.le
  refine ⟨⟨by omega, ?_, hlead.led, h.majority_of_matchCount hl hq⟩, hlen⟩
  rw [← hlead.log_eq, ← h.window.termAt_eq hbase hlen]
  exact hterm

/-- Committed entries are emitted as they stand in the log. -/
theorem LogNode.emitCommitted (h : LogNode ρ M ldr γ p d r) {n : Nat}
    (hn : ρ = .guarded → r.commit ≤ n ∧ n ≤ (γ.hist.log p).length ∧
      CommittedBy LogEntry.term M.members γ.hist r.hard.term ((γ.hist.log p).take n)) :
    LogNode ρ M ldr γ p d (Core.emitCommitted { r with commit := n }) := by
  refine { h with
    disk := { h.disk with }
    lead := fun hl => { h.lead hl with }
    commit := fun hρ => ?_
    emitted := fun hρ e he => ?_ }
  · obtain ⟨hle, hlen, hcom⟩ := hn hρ
    have hc := h.commit hρ
    refine ⟨hc.base_le.trans hle, ?_, hlen, hcom⟩
    show max r.lastEmitted n = n
    rw [hc.emitted_eq]
    exact max_eq_right hle
  · obtain ⟨_, hlen, hcom⟩ := hn hρ
    have hc := h.commit hρ
    rcases mem_append.mp he with hold | hnew
    · exact h.emitted hρ e hold
    · -- entry number `i` of the full log, above the base and below the new commit index
      obtain ⟨i, hi, rfl⟩ := mem_map.mp hnew
      rw [List.mem_range'_1] at hi
      replace hi : r.lastEmitted + 1 ≤ i ∧ i < r.lastEmitted + 1 + (n - r.lastEmitted) := hi
      have hbase := hc.base_le
      have hemit := hc.emitted_eq
      obtain ⟨k, rfl⟩ : ∃ k, i = k + 1 := ⟨i - 1, by omega⟩
      have hat := h.window.entryAt_eq (i := k) (by omega) (by omega)
      refine ⟨r.hard.term, (γ.hist.log p).take n, k, hcom, ?_, h.indexed k _ hat⟩
      rw [getElem?_take_of_lt (by omega)]
      exact hat

/-- The commit index rises only to what is committed. -/
theorem LogNode.maybeAdvanceCommit (hG : γ.Global M ldr) (h : LogNode ρ M ldr γ p d r)
    (hc₀ : r.commit = c₀) (htf : r.ready.truncateFrom = 0) :
    LogOk ρ M ldr γ p d c₀ r.maybeAdvanceCommit := by
  unfold Core.maybeAdvanceCommit
  split
  · exact h.ok hG hc₀ htf
  · rename_i hrole
    have hl : r.role = .leader := not_not.mp hrole
    split
    · exact h.ok hG hc₀ htf
    · rename_i k hk
      obtain ⟨hcom, hlen⟩ := h.committed_of_commitIndexFrom hl hk
      have hlt := (commitIndexFrom_spec hk).1
      have hby : CommittedBy LogEntry.term M.members γ.hist r.hard.term
          ((γ.hist.log p).take k) := by
        rw [(h.lead hl).log_eq]
        exact .inr ⟨_, k, le_rfl, hcom, prefix_rfl⟩
      refine ⟨γ, .refl ldr p γ, hG, h.emitCommitted fun _ => ⟨hlt.le, hlen, hby⟩,
        fun _ _ => hcom, fun _ => ⟨?_, .inl htf⟩⟩
      show c₀ ≤ k
      omega

/-- An acknowledgement is recorded, and may commit entries. -/
theorem LogNode.recordMatch (hG : γ.Global M ldr) (h : LogNode ρ M ldr γ p d r)
    (hl : r.role = .leader) (hm : LogMsg ρ M ldr γ m) (hterm : m.term = r.hard.term)
    (hkind : m.kind = .appendEntriesResp ∨ m.kind = .installSnapshotResp) (hs : m.success = true)
    (hc₀ : r.commit = c₀) (htf : r.ready.truncateFrom = 0) :
    LogOk ρ M ldr γ p d c₀ (r.recordMatch m) := by
  have hlead := h.lead hl
  have hack : m.matchIndex ≤ γ.hist.ack r.hard.term m.from_ := by
    rw [← hterm]; exact hm.acked hkind hs
  have hlen := hack.trans (hG.sound.ack_le r.hard.term m.from_)
  unfold Core.recordMatch
  refine LogNode.maybeAdvanceCommit hG ?_ hc₀ htf
  refine { h with
    disk := { h.disk with }
    lead := fun _ => { hlead with matched := fun q hq => ?_, next := fun q hq => ?_ }
    commit := fun hρ => { h.commit hρ with } }
  · by_cases hqf : q = m.from_
    · rw [hqf]
      rw [getD_insert_self]
      exact max_le (hlead.matched _ hm.from_mem) hack
    · rw [getD_insert_of_ne _ _ _ hqf]
      exact hlead.matched q hq
  · by_cases hqf : q = m.from_
    · rw [hqf, getD_insert_self]
      obtain ⟨hpos, hle⟩ := hlead.next _ hm.from_mem
      refine ⟨by omega, max_le hle ?_⟩
      exact Nat.succ_le_succ hlen
    · rw [getD_insert_of_ne _ _ _ hqf]
      exact hlead.next q hq

/-! ## Leaders: election, proposals, heartbeats, responses. -/

section

variable (hG : γ.Global M ldr) (h : LogNode ρ M ldr γ p d r)

include hG h

theorem LogNode.becomeLeader (hrole : r.role = .candidate) (hopen : ¬ γ.hist.led r.hard.term)
    (hldr : ldr r.hard.term = p) {Q : Finset NodeId} (hQ : Majority M.members Q)
    (hvotes : ∀ v ∈ Q, ⟨v, true⟩ ∈ r.votes.entries)
    (hc₀ : r.commit = c₀) (htf : r.ready.truncateFrom = 0) :
    LogOk ρ M ldr γ p d c₀ r.becomeLeader := by
  rw [becomeLeader_eq]
  obtain ⟨γ₁, hmoves₁, hG₁, h₁⟩ := h.asLeader hG hrole hopen hldr hQ hvotes
  obtain ⟨γ₂, hmoves₂, hG₂, h₂⟩ := h₁.appendLocal hG₁ rfl
    (e := { term := r.hard.term, index := r.asLeader.lastIndex + 1 }) rfl rfl
  have h₃ : LogNode ρ M ldr γ₂ p d r.asLeader.withNoop := h₂.same {}
  have h₄ := h₃.broadcastAppend rfl
  refine .after (hmoves₁.trans hmoves₂) (h₄.maybeAdvanceCommit hG₂ ?_ ?_)
  · rw [broadcastAppend_eq]
    exact hc₀
  · rw [broadcastAppend_eq]
    exact htf

theorem LogNode.propose {command : Bytes}
    (hr : r.propose command = some r') (htf : r.ready.truncateFrom = 0) :
    LogOk ρ M ldr γ p d r.commit r' := by
  unfold Core.propose at hr
  split at hr
  · cases hr
  · rename_i hrole
    have hl : r.role = .leader := not_not.mp hrole
    cases hr
    obtain ⟨γ₁, hmoves, hG₁, h₁⟩ := h.appendLocal hG hl
      (e := { term := r.hard.term, index := r.lastIndex + 1, command := command }) rfl rfl
    have h₂ := h₁.broadcastAppend hl
    refine .after hmoves (h₂.maybeAdvanceCommit hG₁ ?_ ?_)
    · rw [broadcastAppend_eq]
      rfl
    · rw [broadcastAppend_eq]
      exact htf

theorem LogNode.startReadIndex {ctx : Nat}
    (hr : r.startReadIndex ctx = some r') (htf : r.ready.truncateFrom = 0) :
    LogOk ρ M ldr γ p d r.commit r' := by
  unfold Core.startReadIndex at hr
  split at hr
  · cases hr
  · rename_i hrole
    have hl : r.role = .leader := not_not.mp hrole
    split at hr
    · cases hr
    · split at hr
      · cases hr
        exact LogNode.ok (h.same {}) hG rfl htf
      · cases hr
        refine LogNode.ok (.broadcastAppend ?_ ?_) hG ?_ ?_
        · exact h.same {}
        · exact hl
        · rw [broadcastAppend_eq]
          rfl
        · rw [broadcastAppend_eq]
          exact htf

end

theorem LogOk.confirmReads (h : LogOk ρ M ldr γ p d c₀ r) :
    LogOk ρ M ldr γ p d c₀ r.confirmReads := by
  obtain ⟨γ', hmoves, hG', h', hraised, hkept⟩ := h
  exact ⟨γ', hmoves, hG', h'.same {}, hraised, hkept⟩

theorem LogNode.handleAppendEntriesResp (hG : γ.Global M ldr) (h : LogNode ρ M ldr γ p d r)
    (hm : LogMsg ρ M ldr γ m) (hto : m.to_ = p) (hterm : m.term = r.hard.term)
    (hkind : m.kind = .appendEntriesResp) (hc₀ : r.commit = c₀) (htf : r.ready.truncateFrom = 0) :
    LogOk ρ M ldr γ p d c₀ (r.handleAppendEntriesResp m) := by
  unfold Core.handleAppendEntriesResp
  split
  · exact h.ok hG hc₀ htf
  · rename_i hrole
    have hl : r.role = .leader := not_not.mp hrole
    refine .confirmReads ?_
    split
    · rename_i hs
      refine LogNode.recordMatch hG ?_ ?_ hm ?_ (.inl hkind) hs ?_ ?_
      · exact h.same {}
      · exact hl
      · exact hterm
      · exact hc₀
      · exact htf
    · -- back off and try again
      rw [sendAppend_eq]
      have hback : LogNode ρ M ldr γ p d { r with next_ := r.next_.insert m.from_ (max 1 (min
          (if m.hintIndex ≠ 0 then m.hintIndex else r.next_.getD m.from_ 0 - 1)
          (r.next_.getD m.from_ 0 - 1))) } := by
        have hlead := h.lead hl
        refine { h with
          disk := { h.disk with }
          lead := fun _ => { hlead with next := fun q hq => ?_ }
          commit := fun hρ => { h.commit hρ with } }
        by_cases hqf : q = m.from_
        · rw [hqf, getD_insert_self]
          obtain ⟨hpos, hle⟩ := hlead.next _ hm.from_mem
          show 0 < _ ∧ _ ≤ (γ.hist.llog r.hard.term).length + 1
          omega
        · rw [getD_insert_of_ne _ _ _ hqf]
          exact hlead.next q hq
      refine LogNode.ok (.push ?_ ?_) hG hc₀ htf
      · exact hback.same {}
      · intro m' hm'
        rw [mem_singleton.mp hm']
        refine appendMessage_logMsg (p := p) (d := d) ?_ ?_ hm.from_mem (by
          rw [← hto]; exact hm.from_ne)
        · exact hback.same {}
        · exact hl

theorem LogNode.handleInstallSnapshotResp (hG : γ.Global M ldr) (h : LogNode ρ M ldr γ p d r)
    (hm : LogMsg ρ M ldr γ m) (hterm : m.term = r.hard.term) (hkind : m.kind = .installSnapshotResp)
    (hc₀ : r.commit = c₀) (htf : r.ready.truncateFrom = 0) :
    LogOk ρ M ldr γ p d c₀ (r.handleInstallSnapshotResp m) := by
  unfold Core.handleInstallSnapshotResp
  split
  · exact h.ok hG hc₀ htf
  · rename_i hrole
    have hl : r.role = .leader := not_not.mp hrole
    split
    · rename_i hs
      exact h.recordMatch hG hl hm hterm (.inr hkind) hs hc₀ htf
    · exact h.ok hG hc₀ htf

end

end Flotilla.Raft
