/-
  Raft.LogInvariant — the cores simulate the replicated log.

  The ghost state is a `History` of the abstract replicated log, whose node
  logs are the full logs of the cores, and the log every candidate campaigned
  with.  `LogNode` says how a core and its storage represent its part of the
  history, `LogMsg` what a message in flight says about it.

  Two regimes are treated together.  In an uncompacted run no core ever
  compacts; its snapshot base is 0 and no snapshot is sent.  In a guarded run
  cores compact freely, and the delivered messages meet the conditions under
  which commit indices stay inside what the leader committed; then commit
  indices, emitted entries and snapshots are part of the invariant too.
-/
import Flotilla.Raft.FullLog
import Flotilla.Raft.Runs

namespace Flotilla.Raft

open ReplicatedLog

/-! ## Ghost state and regimes. -/

inductive Regime where
  | uncompacted
  | guarded
  deriving DecidableEq

structure Ghost where
  hist : History NodeId LogEntry
  /-- The log with which a node campaigned in a term. -/
  clog : Nat → NodeId → List LogEntry

/-- `e` stands at its index in a committed piece of a leader's log. -/
def Emittable (M : Membership) (γ : Ghost) (e : LogEntry) : Prop :=
  ∃ b l k, CommittedBy LogEntry.term M.members γ.hist b l ∧ l[k]? = some e ∧ e.index = k + 1

namespace Ghost

/-- What node `p` may change: its own term, log and votes, and the log of the
term it leads. -/
structure Moves (ldr : Nat → NodeId) (p : NodeId) (γ γ' : Ghost) : Prop where
  ext : γ.hist.Extends γ'.hist
  log_other : ∀ q, q ≠ p → γ'.hist.log q = γ.hist.log q
  term_other : ∀ q, q ≠ p → γ'.hist.term q = γ.hist.term q
  voted_other : ∀ t q, q ≠ p → γ'.hist.voted t q → γ.hist.voted t q
  llog_other : ∀ t, γ.hist.led t → γ'.hist.llog t = γ.hist.llog t ∨ ldr t = p
  clog_keep : ∀ t q, t ≤ γ.hist.term q → γ'.clog t q = γ.clog t q

structure Global (M : Membership) (ldr : Nat → NodeId) (γ : Ghost) : Prop where
  sound : Sound LogEntry.term M.members γ.hist
  led_ldr : ∀ t, γ.hist.led t → ldr t ≠ 0
  indexed : ∀ t, γ.hist.led t → Indexed (γ.hist.llog t)

variable {ldr : Nat → NodeId} {p : NodeId} {γ γ' γ'' : Ghost}

theorem Moves.refl (ldr : Nat → NodeId) (p : NodeId) (γ : Ghost) : Moves ldr p γ γ :=
  ⟨.refl _, fun _ _ => rfl, fun _ _ => rfl, fun _ _ _ h => h, fun _ _ => .inl rfl, fun _ _ _ => rfl⟩

theorem Moves.trans (h : Moves ldr p γ γ') (h' : Moves ldr p γ' γ'') : Moves ldr p γ γ'' where
  ext := h.ext.trans h'.ext
  log_other q hq := (h'.log_other q hq).trans (h.log_other q hq)
  term_other q hq := (h'.term_other q hq).trans (h.term_other q hq)
  voted_other t q hq hv := h.voted_other t q hq (h'.voted_other t q hq hv)
  llog_other t ht := by
    rcases h.llog_other t ht with heq | hp
    · rcases h'.llog_other t (h.ext.led t ht) with heq' | hp
      · exact .inl (heq'.trans heq)
      · exact .inr hp
    · exact .inr hp
  clog_keep t q ht := by
    rw [h'.clog_keep t q (ht.trans (h.ext.term q)), h.clog_keep t q ht]

end Ghost

/-! ## Messages. -/

/-- An `AppendEntries` is a segment of the log of its term's leader. -/
structure AppendOk (ρ : Regime) (M : Membership) (ldr : Nat → NodeId) (γ : Ghost) (m : Message) :
    Prop where
  led : γ.hist.led m.term
  from_ldr : ldr m.term = m.from_
  prev_le : m.prevIndex ≤ (γ.hist.llog m.term).length
  prev_term : m.prevTerm = termOf LogEntry.term (γ.hist.llog m.term) m.prevIndex
  entries : m.entries <+: (γ.hist.llog m.term).drop m.prevIndex
  commit : ρ = .guarded → m.commit ≤ (γ.hist.llog m.term).length ∧
    CommittedBy LogEntry.term M.members γ.hist m.term ((γ.hist.llog m.term).take m.commit)

/-- An `InstallSnapshot` stands for a committed prefix of that log. -/
structure SnapshotOk (ρ : Regime) (M : Membership) (ldr : Nat → NodeId) (γ : Ghost)
    (m : Message) : Prop where
  guarded : ρ = .guarded
  led : γ.hist.led m.term
  from_ldr : ldr m.term = m.from_
  snap_le : m.snapIndex ≤ (γ.hist.llog m.term).length
  snap_term : m.snapTerm = termOf LogEntry.term (γ.hist.llog m.term) m.snapIndex
  committed :
    CommittedBy LogEntry.term M.members γ.hist m.term ((γ.hist.llog m.term).take m.snapIndex)

/-- A vote of `v` in term `t` for a candidate with log `cand`, if it still matters. -/
def VoteBacked (γ : Ghost) (t : Nat) (v : NodeId) (cand : List LogEntry) : Prop :=
  γ.hist.led t ∨ (γ.hist.voted t v ∧ UpToDate LogEntry.term cand (γ.hist.vlog t v))

structure LogMsg (ρ : Regime) (M : Membership) (ldr : Nat → NodeId) (γ : Ghost) (m : Message) :
    Prop where
  from_mem : m.from_ ∈ M.peers
  from_ne : m.from_ ≠ m.to_
  term_le : m.term ≤ γ.hist.term m.from_
  request : m.kind = .requestVote →
    m.lastLogIndex = (γ.clog m.term m.from_).length ∧
      m.lastLogTerm = termOf LogEntry.term (γ.clog m.term m.from_) m.lastLogIndex
  granted : m.kind = .requestVoteResp → m.granted = true →
    m.term ≤ γ.hist.term m.to_ ∧ VoteBacked γ m.term m.from_ (γ.clog m.term m.to_)
  append : m.kind = .appendEntries → AppendOk ρ M ldr γ m
  acked : m.kind = .appendEntriesResp ∨ m.kind = .installSnapshotResp → m.success = true →
    m.matchIndex ≤ γ.hist.ack m.term m.from_
  snapshot : m.kind = .installSnapshot → SnapshotOk ρ M ldr γ m

/-! ## Nodes. -/

/-- What a leader knows. -/
structure LeadOk (M : Membership) (ldr : Nat → NodeId) (γ : Ghost) (p : NodeId) (r : Core) :
    Prop where
  led : γ.hist.led r.hard.term
  is_ldr : ldr r.hard.term = p
  log_eq : γ.hist.log p = γ.hist.llog r.hard.term
  matched : ∀ q ∈ M.peers, r.match_.getD q 0 ≤ γ.hist.ack r.hard.term q
  next : ∀ q ∈ M.peers, 0 < r.next_.getD q 0 ∧
    r.next_.getD q 0 ≤ (γ.hist.llog r.hard.term).length + 1

/-- The commit index stays inside what some leader committed. -/
structure CommitOk (M : Membership) (γ : Ghost) (p : NodeId) (r : Core) : Prop where
  base_le : r.base.lastIndex ≤ r.commit
  emitted_eq : r.lastEmitted = r.commit
  le_length : r.commit ≤ (γ.hist.log p).length
  committed : CommittedBy LogEntry.term M.members γ.hist r.hard.term
    ((γ.hist.log p).take r.commit)

structure LogNode (ρ : Regime) (M : Membership) (ldr : Nat → NodeId) (γ : Ghost) (p : NodeId)
    (d : Storage) (r : Core) : Prop where
  mem : p ∈ M.peers
  valid : r.config.Valid M p
  term : γ.hist.term p = r.hard.term
  indexed : Indexed (γ.hist.log p)
  window : Window r.base r.log (γ.hist.log p)
  sorted : d.entries.Pairwise (fun e f => e.index < f.index)
  disk : OnDisk d r (γ.hist.log p)
  backed : r.hard.votedFor ≠ 0 → r.hard.term ≤ γ.hist.term r.hard.votedFor ∧
    VoteBacked γ r.hard.term p (γ.clog r.hard.term r.hard.votedFor)
  spent : γ.hist.voted r.hard.term p → r.hard.votedFor ≠ 0
  cand : r.role = .candidate → γ.hist.log p = γ.clog r.hard.term p ∧
    ∀ v, ⟨v, true⟩ ∈ r.votes.entries → VoteBacked γ r.hard.term v (γ.hist.log p)
  lead : r.role = .leader → LeadOk M ldr γ p r
  commit : ρ = .guarded → CommitOk M γ p r
  plain : ρ = .uncompacted → r.base.lastIndex = 0
  msgs : ∀ m ∈ r.ready.messages, LogMsg ρ M ldr γ m
  emitted : ρ = .guarded → ∀ e ∈ r.ready.committed, Emittable M γ e

/-! ## Later ghost states and later ballots. -/

section

variable {ρ : Regime} {M : Membership} {ldr : Nat → NodeId} {γ γ' : Ghost} {p q : NodeId}
  {d : Storage} {r : Core} {m : Message}

theorem VoteBacked.mono (hE : γ.hist.Extends γ'.hist) {t : Nat} {v : NodeId} {l : List LogEntry}
    (h : VoteBacked γ t v l) : VoteBacked γ' t v l := by
  rcases h with hled | ⟨hv, hup⟩
  · exact .inl (hE.led t hled)
  · refine .inr ⟨hE.voted t v hv, ?_⟩
    rw [hE.vlog t v hv]
    exact hup

theorem Emittable.mono (hG : γ.Global M ldr) (hE : γ.hist.Extends γ'.hist) {e : LogEntry}
    (h : Emittable M γ e) : Emittable M γ' e := by
  obtain ⟨b, l, k, hl, hk, hidx⟩ := h
  exact ⟨b, l, k, hl.mono hG.sound hE le_rfl, hk, hidx⟩

theorem committed_take_mono (hG : γ.Global M ldr) (hE : γ.hist.Extends γ'.hist) {t n : Nat}
    (hled : γ.hist.led t) (hn : n ≤ (γ.hist.llog t).length)
    (h : CommittedBy LogEntry.term M.members γ.hist t ((γ.hist.llog t).take n)) :
    CommittedBy LogEntry.term M.members γ'.hist t ((γ'.hist.llog t).take n) := by
  rw [prefix_take_eq (hE.llog t hled) hn]
  exact h.mono hG.sound hE le_rfl

theorem drop_prefix_drop {l L : List LogEntry} (h : l <+: L) {n : Nat} (hn : n ≤ l.length) :
    l.drop n <+: L.drop n := by
  obtain ⟨s, rfl⟩ := h
  rw [drop_append_of_le_length hn]
  exact prefix_append _ _

theorem AppendOk.mono (hG : γ.Global M ldr) (hE : γ.hist.Extends γ'.hist)
    (h : AppendOk ρ M ldr γ m) : AppendOk ρ M ldr γ' m where
  led := hE.led _ h.led
  from_ldr := h.from_ldr
  prev_le := h.prev_le.trans (hE.llog _ h.led).length_le
  prev_term := by
    rw [prefix_termOf LogEntry.term (hE.llog _ h.led) h.prev_le]
    exact h.prev_term
  entries := h.entries.trans (drop_prefix_drop (hE.llog _ h.led) h.prev_le)
  commit hρ := by
    obtain ⟨hle, hcom⟩ := h.commit hρ
    exact ⟨hle.trans (hE.llog _ h.led).length_le, committed_take_mono hG hE h.led hle hcom⟩

theorem SnapshotOk.mono (hG : γ.Global M ldr) (hE : γ.hist.Extends γ'.hist)
    (h : SnapshotOk ρ M ldr γ m) : SnapshotOk ρ M ldr γ' m where
  guarded := h.guarded
  led := hE.led _ h.led
  from_ldr := h.from_ldr
  snap_le := h.snap_le.trans (hE.llog _ h.led).length_le
  snap_term := by
    rw [prefix_termOf LogEntry.term (hE.llog _ h.led) h.snap_le]
    exact h.snap_term
  committed := committed_take_mono hG hE h.led h.snap_le h.committed

theorem LogMsg.mono (hG : γ.Global M ldr) (hmoves : γ.Moves ldr p γ') (h : LogMsg ρ M ldr γ m) :
    LogMsg ρ M ldr γ' m where
  from_mem := h.from_mem
  from_ne := h.from_ne
  term_le := h.term_le.trans (hmoves.ext.term _)
  request hk := by
    rw [hmoves.clog_keep _ _ h.term_le]
    exact h.request hk
  granted hk hg := by
    obtain ⟨hle, hback⟩ := h.granted hk hg
    rw [hmoves.clog_keep _ _ hle]
    exact ⟨hle.trans (hmoves.ext.term _), hback.mono hmoves.ext⟩
  append hk := (h.append hk).mono hG hmoves.ext
  acked hk hs := (h.acked hk hs).trans (hmoves.ext.ack _ _)
  snapshot hk := (h.snapshot hk).mono hG hmoves.ext

/-- `r'` differs from `r` in timers and read bookkeeping only. -/
structure SameLog (r r' : Core) : Prop where
  config : r'.config = r.config := by rfl
  hard : r'.hard = r.hard := by rfl
  log : r'.log = r.log := by rfl
  base : r'.base = r.base := by rfl
  role : r'.role = r.role := by rfl
  votes : r'.votes = r.votes := by rfl
  next_ : r'.next_ = r.next_ := by rfl
  match_ : r'.match_ = r.match_ := by rfl
  commit : r'.commit = r.commit := by rfl
  lastEmitted : r'.lastEmitted = r.lastEmitted := by rfl
  truncateFrom : r'.ready.truncateFrom = r.ready.truncateFrom := by rfl
  entries : r'.ready.entriesToAppend = r.ready.entriesToAppend := by rfl
  snapshot : r'.ready.snapshotToApply = r.ready.snapshotToApply := by rfl
  messages : r'.ready.messages = r.ready.messages := by rfl
  committed : r'.ready.committed = r.ready.committed := by rfl

theorem LogNode.same (h : LogNode ρ M ldr γ p d r) {r' : Core} (hs : SameLog r r') :
    LogNode ρ M ldr γ p d r' where
  mem := h.mem
  valid := by rw [hs.config]; exact h.valid
  term := by rw [hs.hard]; exact h.term
  indexed := h.indexed
  window := by rw [hs.base, hs.log]; exact h.window
  sorted := h.sorted
  disk := by
    refine ⟨?_, ?_⟩
    · rw [hs.snapshot, hs.truncateFrom, hs.entries]
      exact h.disk.window
    · rw [hs.snapshot, hs.base]
      exact h.disk.le
  backed := by rw [hs.hard]; exact h.backed
  spent := by rw [hs.hard]; exact h.spent
  cand := by rw [hs.role, hs.hard, hs.votes]; exact h.cand
  lead hl := by
    rw [hs.role] at hl
    have hlead := h.lead hl
    exact {
      led := by rw [hs.hard]; exact hlead.led
      is_ldr := by rw [hs.hard]; exact hlead.is_ldr
      log_eq := by rw [hs.hard]; exact hlead.log_eq
      matched := by rw [hs.match_, hs.hard]; exact hlead.matched
      next := by rw [hs.next_, hs.hard]; exact hlead.next }
  commit hρ := by
    have hc := h.commit hρ
    exact {
      base_le := by rw [hs.base, hs.commit]; exact hc.base_le
      emitted_eq := by rw [hs.lastEmitted, hs.commit]; exact hc.emitted_eq
      le_length := by rw [hs.commit]; exact hc.le_length
      committed := by rw [hs.hard, hs.commit]; exact hc.committed }
  plain := by rw [hs.base]; exact h.plain
  msgs := by rw [hs.messages]; exact h.msgs
  emitted := by rw [hs.committed]; exact h.emitted

theorem LogNode.later (hG : γ.Global M ldr) (hmoves : γ.Moves ldr p γ')
    (h : LogNode ρ M ldr γ q d r) (hlog : γ'.hist.log q = γ.hist.log q)
    (hterm : γ'.hist.term q = γ.hist.term q)
    (hspent : γ'.hist.voted r.hard.term q → r.hard.votedFor ≠ 0)
    (hllog : r.role = .leader → γ'.hist.llog r.hard.term = γ.hist.llog r.hard.term) :
    LogNode ρ M ldr γ' q d r := by
  have hE := hmoves.ext
  have hle : r.hard.term ≤ γ.hist.term q := h.term.ge
  exact {
    mem := h.mem
    valid := h.valid
    term := hterm.trans h.term
    indexed := by rw [hlog]; exact h.indexed
    window := by rw [hlog]; exact h.window
    sorted := h.sorted
    disk := by rw [hlog]; exact h.disk
    backed := fun hv => by
      obtain ⟨hle, hback⟩ := h.backed hv
      rw [hmoves.clog_keep _ _ hle]
      exact ⟨hle.trans (hE.term _), hback.mono hE⟩
    spent := hspent
    cand := fun hc => by
      obtain ⟨heq, hvotes⟩ := h.cand hc
      rw [hlog, hmoves.clog_keep _ _ hle]
      exact ⟨heq, fun v hv => (hvotes v hv).mono hE⟩
    lead := fun hl => by
      have hlead := h.lead hl
      exact {
        led := hE.led _ hlead.led
        is_ldr := hlead.is_ldr
        log_eq := by rw [hlog, hllog hl]; exact hlead.log_eq
        matched := fun v hv => (hlead.matched v hv).trans (hE.ack _ _)
        next := by rw [hllog hl]; exact hlead.next }
    commit := fun hρ => by
      have hc := h.commit hρ
      exact {
        base_le := hc.base_le
        emitted_eq := hc.emitted_eq
        le_length := by rw [hlog]; exact hc.le_length
        committed := by rw [hlog]; exact hc.committed.mono hG.sound hE le_rfl }
    plain := h.plain
    msgs := fun m hm => (h.msgs m hm).mono hG hmoves
    emitted := fun hρ e he => (h.emitted hρ e he).mono hG hE }

theorem LogNode.frame (hG : γ.Global M ldr) (hmoves : γ.Moves ldr p γ') (hq : q ≠ p)
    (h : LogNode ρ M ldr γ q d r) : LogNode ρ M ldr γ' q d r := by
  refine h.later hG hmoves (hmoves.log_other q hq) (hmoves.term_other q hq) ?_ ?_
  · exact fun hv => h.spent (hmoves.voted_other _ _ hq hv)
  · -- only the leader itself extends its log
    intro hl
    have hlead := h.lead hl
    rcases hmoves.llog_other _ hlead.led with heq | hp
    · exact heq
    · exact absurd (hlead.is_ldr.symm.trans hp) hq

theorem LogNode.drained (h : LogNode ρ M ldr γ p d r) :
    LogNode ρ M ldr γ p (d.persist r.ready) { r with ready := {} } :=
  { h with
    sorted := by
      rw [Storage.persist_entries h.sorted, h.disk.window.log_eq]
      exact h.indexed.pairwise_drop _
    disk := by
      have hsnap : (d.persist r.ready).pendingSnap none = d.pendingSnap r.ready.snapshotToApply := by
        rw [← Storage.persist_snap]
        rfl
      have hentries : (d.persist r.ready).pendingEntries none 0 [] =
          d.pendingEntries r.ready.snapshotToApply r.ready.truncateFrom r.ready.entriesToAppend := by
        rw [← Storage.persist_entries h.sorted]
        simp [Storage.pendingEntries]
      refine ⟨?_, ?_⟩
      · show Window ((d.persist r.ready).pendingSnap none)
          ((d.persist r.ready).pendingEntries none 0 []) _
        rw [hsnap, hentries]
        exact h.disk.window
      · show ((d.persist r.ready).pendingSnap none).lastIndex ≤ _
        rw [hsnap]
        exact h.disk.le
    msgs := nofun
    emitted := nofun
    lead := fun hl => { h.lead hl with }
    commit := fun hρ => { h.commit hρ with } }

end

end Flotilla.Raft
