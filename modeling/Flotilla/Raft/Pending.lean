/-
  Raft.Pending — what a core has in `ready` between two `TakeReady`s.

  The core collects what is to be persisted and applied in `ready`, over any
  number of operations: appends, cuts of the log, a snapshot, votes, committed
  entries.  `Persist` replays the durable part in a fixed order.  `Pending` says
  that whatever has been collected, the replay gives the core's own hard state,
  base and log, and that the committed entries follow one another; every
  operation keeps it.
-/
import Flotilla.Raft.CrashRecovery
import Flotilla.Raft.Replication

namespace Flotilla.Raft

open Core

/-! ## Operations. -/

/-- An operation on the core, between two `TakeReady`s. -/
inductive Op where
  | tick
  | step (m : Message)
  | propose (command : Bytes)
  | startReadIndex (ctx : Nat)

/-- `Propose` and `StartReadIndex` change nothing when they return false. -/
def Core.perform (r : Core) : Op → Core
  | .tick => r.tick
  | .step m => r.step m
  | .propose command => (r.propose command).getD r
  | .startReadIndex ctx => (r.startReadIndex ctx).getD r

/-- What a correct peer sends: its entries follow one another behind `prev_index`. -/
def Message.Sound (m : Message) : Prop := m.kind = .appendEntries → Contiguous m.prevIndex m.entries

/-- Every field fits the one it is written to. -/
structure Message.Fits (m : Message) : Prop where
  term : m.term < 2 ^ 64
  from_ : m.from_ < 2 ^ 32
  entries : ∀ e ∈ m.entries, e.Fits
  snap : Snapshot.Fits ⟨m.snapIndex, m.snapTerm, m.snapData⟩

def Op.Sound : Op → Prop
  | .step m => m.Sound
  | _ => True

/-- The counters do not overflow, and what the operation brings fits. -/
def Op.Fits (r : Core) (op : Op) : Prop :=
  (r.hard.term + 1 < 2 ^ 64 ∧ r.lastIndex + 1 < 2 ^ 64) ∧
    match op with
    | .step m => m.Fits
    | .propose command => 20 + command.length < 2 ^ 32
    | _ => True

instance (m : Message) : Decidable m.Sound := inferInstanceAs (Decidable (_ → _))

instance (m : Message) : Decidable m.Fits :=
  decidable_of_iff (m.term < 2 ^ 64 ∧ m.from_ < 2 ^ 32 ∧ (∀ e ∈ m.entries, e.Fits) ∧
      Snapshot.Fits ⟨m.snapIndex, m.snapTerm, m.snapData⟩)
    ⟨fun h => ⟨h.1, h.2.1, h.2.2.1, h.2.2.2⟩, fun h => ⟨h.1, h.2, h.3, h.4⟩⟩

instance : ∀ op : Op, Decidable op.Sound
  | .step m => inferInstanceAs (Decidable m.Sound)
  | .tick => inferInstanceAs (Decidable True)
  | .propose _ => inferInstanceAs (Decidable True)
  | .startReadIndex _ => inferInstanceAs (Decidable True)

instance (r : Core) : ∀ op : Op, Decidable (op.Fits r)
  | .step m => inferInstanceAs (Decidable (_ ∧ m.Fits))
  | .tick => inferInstanceAs (Decidable (_ ∧ True))
  | .propose command => inferInstanceAs (Decidable (_ ∧ 20 + command.length < 2 ^ 32))
  | .startReadIndex _ => inferInstanceAs (Decidable (_ ∧ True))

/-- Each operation of a batch, on the core that it meets. -/
def OpsFit : Core → List Op → Prop
  | _, [] => True
  | r, op :: ops => op.Fits r ∧ OpsFit (r.perform op) ops

instance OpsFit.decidable : ∀ r ops, Decidable (OpsFit r ops)
  | _, [] => inferInstanceAs (Decidable True)
  | r, op :: ops =>
      have := OpsFit.decidable (r.perform op) ops
      inferInstanceAs (Decidable (op.Fits r ∧ OpsFit (r.perform op) ops))

/-! ## What is pending. -/

/-- What a core keeps on disk, and the id that it votes for. -/
structure DurableFits (hs : HardState) (base : Snapshot) (log : List LogEntry) (id : NodeId) :
    Prop where
  hard : hs.Fits
  base : base.Fits
  log : ∀ e ∈ log, e.Fits
  id : id < 2 ^ 32

/-- Operations between two `TakeReady`s: what was stored and emitted when they began, whether all
sizes fit the files, and the snapshots that they may install. -/
structure Batch where
  storage : Storage
  emitted : Nat
  sized : Prop
  allowed : Snapshot → Prop

/-- Where the committed entries in `ready` begin. -/
def Core.emitsFrom (r : Core) (emitted : Nat) : Nat :=
  (r.ready.snapshotToApply.map Snapshot.lastIndex).getD emitted

/-- Persisting what is pending makes the storage the durable part of `r`, and what is to be applied
goes on where the last batch, or the new snapshot, ended. -/
structure Pending (b : Batch) (r : Core) : Prop where
  stored : Contiguous b.storage.snap.lastIndex b.storage.entries
  hard : (if r.ready.hardStateChanged then r.ready.hardState else b.storage.hard) = r.hard
  base : b.storage.pendingSnap r.ready.snapshotToApply = r.base
  log : b.storage.pendingEntries r.ready.snapshotToApply r.ready.truncateFrom
    r.ready.entriesToAppend = r.log
  newer : b.storage.snap.lastIndex ≤ r.base.lastIndex
  contiguous : Contiguous r.base.lastIndex r.log
  le : r.base.lastIndex ≤ r.commit
  committed : Contiguous (r.emitsFrom b.emitted) r.ready.committed
  emitted : r.lastEmitted = r.emitsFrom b.emitted + r.ready.committed.length
  commit_le : r.commit ≤ r.lastEmitted
  installs : ∀ snap, r.ready.snapshotToApply = some snap → b.allowed snap
  fits : b.sized → DurableFits r.hard r.base r.log r.config.id

/-- An accepted snapshot is one that the batch may install. -/
def Op.Allowed (b : Batch) (r : Core) : Op → Prop
  | .step m => m.kind = .installSnapshot → r.commit < m.snapIndex →
      b.allowed ⟨m.snapIndex, m.snapTerm, m.snapData⟩
  | _ => True

variable {r : Core}

theorem Op.allowed_of_forall {b : Batch} {op : Op} (h : ∀ snap, b.allowed snap) :
    op.Allowed b r := by
  cases op with
  | step m => exact fun _ _ => h _
  | tick | propose command | startReadIndex ctx => trivial

theorem Core.entryAt_index (hc : Contiguous r.base.lastIndex r.log) {i : Nat}
    (hb : r.base.lastIndex < i) (hi : i ≤ r.lastIndex) : (r.entryAt i).index = i := by
  have hslot : i - r.base.lastIndex - 1 < r.log.length := by
    unfold lastIndex at hi
    omega
  have hdrop := hc.drop hslot.le
  rw [List.drop_eq_getElem_cons hslot] at hdrop
  have hindex := hdrop.1
  unfold entryAt
  rw [getElem?_eq_getElem hslot, getD_some]
  omega

theorem Core.contiguous_entryAt (hc : Contiguous r.base.lastIndex r.log) {lo n : Nat}
    (hb : r.base.lastIndex ≤ lo) (hn : lo + n ≤ r.lastIndex) :
    Contiguous lo ((List.range' (lo + 1) n).map r.entryAt) := by
  induction n generalizing lo with
  | zero => trivial
  | succ n ih =>
    rw [List.range'_succ, map_cons]
    exact ⟨entryAt_index hc (by omega) (by omega), ih (by omega) (by omega)⟩

namespace Pending

variable {b : Batch} {r : Core}

section

variable (h : Pending b r)

include h

theorem push (ms : List Message) : Pending b (r.push ms) :=
  { h with }

theorem send (m : Message) : Pending b (r.send m) := h.push _

theorem sendAppend (peer : NodeId) : Pending b (r.sendAppend peer) := by
  rw [sendAppend_eq]
  exact h.push _

theorem broadcastAppend : Pending b r.broadcastAppend := by
  rw [broadcastAppend_eq]
  exact h.push _

theorem emit {n : Nat} (hb : r.base.lastIndex ≤ n) (hn : n ≤ r.lastIndex) :
    Pending b ({ r with commit := n } : Core).emitCommitted := by
  have hfrom : r.base.lastIndex ≤ r.lastEmitted := h.le.trans h.commit_le
  have hentries : Contiguous r.lastEmitted
      ((List.range' (r.lastEmitted + 1) (n - r.lastEmitted)).map r.entryAt) := by
    by_cases hle : n ≤ r.lastEmitted
    · rw [Nat.sub_eq_zero_of_le hle]
      trivial
    · exact contiguous_entryAt h.contiguous hfrom (by omega)
  exact { h with
    le := hb
    committed := by
      refine Contiguous.append_iff.mpr ⟨h.committed, ?_⟩
      have hlast := h.emitted
      show Contiguous (r.emitsFrom b.emitted + r.ready.committed.length) _
      rw [← hlast]
      exact hentries
    emitted := by
      have hlast := h.emitted
      show max r.lastEmitted n = r.emitsFrom b.emitted + (r.ready.committed ++
        (List.range' (r.lastEmitted + 1) (n - r.lastEmitted)).map r.entryAt).length
      rw [length_append, length_map, List.length_range']
      omega
    commit_le := Nat.le_max_right _ _ }

theorem maybeAdvanceCommit : Pending b r.maybeAdvanceCommit := by
  unfold Core.maybeAdvanceCommit
  split
  · exact h
  · split
    · exact h
    · rename_i n hn
      obtain ⟨hcommit, hlast, _⟩ := commitIndexFrom_spec hn
      exact h.emit (h.le.trans hcommit.le) hlast

theorem persistHardState (hs : HardState) (hfits : b.sized → hs.Fits) :
    Pending b ({ r with hard := hs } : Core).persistHardState :=
  { h with
    hard := rfl
    fits := fun hsz => { h.fits hsz with hard := hfits hsz } }

theorem becomeFollower {term : Nat} (leader : NodeId)
    (hterm : b.sized → term < 2 ^ 64) : Pending b (r.becomeFollower term leader) := by
  unfold Core.becomeFollower
  split
  · have hvoted := h.persistHardState ⟨term, 0⟩ fun hs => ⟨hterm hs, Nat.two_pow_pos 32⟩
    exact { hvoted with }
  · exact { h with }

theorem append {e : LogEntry} (he : e.index = r.lastIndex + 1) (hfits : b.sized → e.Fits) :
    Pending b { r with
      log := r.log ++ [e]
      ready := { r.ready with entriesToAppend := r.ready.entriesToAppend ++ [e] } } :=
  { h with
    log := by
      show b.storage.pendingEntries _ _ (r.ready.entriesToAppend ++ [e]) = r.log ++ [e]
      rw [Storage.pendingEntries_append, h.log]
    contiguous := Contiguous.append_iff.mpr ⟨h.contiguous, he, trivial⟩
    fits := fun hs =>
      { h.fits hs with
        log := fun f hf => (mem_append.mp hf).elim ((h.fits hs).log f)
          fun hlast => mem_singleton.mp hlast ▸ hfits hs } }

theorem conflict {e : LogEntry} (hb : r.base.lastIndex < e.index)
    (he : e.index ≤ r.lastIndex) (hfits : b.sized → e.Fits) :
    Pending b { r with
      log := r.log.take (e.index - r.base.lastIndex - 1) ++ [e]
      ready := { r.ready with
        truncateFrom := if r.ready.truncateFrom = 0 ∨ e.index < r.ready.truncateFrom
          then e.index else r.ready.truncateFrom
        entriesToAppend :=
          r.ready.entriesToAppend.filter (fun p => decide (p.index < e.index)) ++ [e] } } :=
  { h with
    log := by
      show b.storage.pendingEntries _ _ (_ ++ [e]) = r.log.take _ ++ [e]
      rw [Storage.pendingEntries_cut _ _ _ _ _ _ (by omega), h.log, h.contiguous.filter_lt hb]
    contiguous := by
      have hlength : (r.log.take (e.index - r.base.lastIndex - 1)).length =
          e.index - r.base.lastIndex - 1 := by
        unfold lastIndex at he
        rw [length_take]
        omega
      refine Contiguous.append_iff.mpr ⟨h.contiguous.take _, ?_, trivial⟩
      rw [hlength]
      show e.index = r.base.lastIndex + (e.index - r.base.lastIndex - 1) + 1
      omega
    fits := fun hs =>
      { h.fits hs with
        log := fun f hf => (mem_append.mp hf).elim
          (fun hfront => (h.fits hs).log f (mem_of_mem_take hfront))
          fun hlast => mem_singleton.mp hlast ▸ hfits hs } }

end

/-! ## Every operation. -/

theorem becomeLeader (h : Pending b r) (hnext : b.sized → r.lastIndex + 1 < 2 ^ 64) :
    Pending b r.becomeLeader := by
  rw [becomeLeader_eq]
  apply maybeAdvanceCommit
  apply broadcastAppend
  have hnoop := h.append (e := { term := r.hard.term, index := r.lastIndex + 1 }) rfl
    fun hs => ⟨(h.fits hs).hard.term, hnext hs, by show 20 + 0 < 2 ^ 32; decide⟩
  exact { hnoop with }

theorem startElection (h : Pending b r)
    (hnext : b.sized → r.hard.term + 1 < 2 ^ 64 ∧ r.lastIndex + 1 < 2 ^ 64) :
    Pending b r.startElection := by
  have hvoted := h.persistHardState ⟨r.hard.term + 1, r.config.id⟩
    fun hs => ⟨(hnext hs).1, (h.fits hs).id⟩
  have hcandidate : Pending b r.asCandidate := { hvoted with }
  rw [startElection_eq]
  split
  · exact hcandidate.becomeLeader fun hs => (hnext hs).2
  · exact hcandidate.push _

theorem tick (h : Pending b r)
    (hnext : b.sized → r.hard.term + 1 < 2 ^ 64 ∧ r.lastIndex + 1 < 2 ^ 64) :
    Pending b r.tick := by
  unfold Core.tick
  dsimp only
  split
  · split
    · exact broadcastAppend { h with }
    · exact { h with }
  · split
    · exact startElection { h with } hnext
    · exact { h with }

theorem propose (h : Pending b r) {command : Bytes}
    (hnext : b.sized → r.lastIndex + 1 < 2 ^ 64) (hcommand : b.sized → 20 + command.length < 2 ^ 32) :
    Pending b ((r.propose command).getD r) := by
  unfold Core.propose
  split
  · exact h
  · apply maybeAdvanceCommit
    apply broadcastAppend
    have happended := h.append
      (e := { term := r.hard.term, index := r.lastIndex + 1, command := command }) rfl
      fun hs => ⟨(h.fits hs).hard.term, hnext hs, hcommand hs⟩
    exact { happended with }

theorem startReadIndex (h : Pending b r) (ctx : Nat) :
    Pending b ((r.startReadIndex ctx).getD r) := by
  unfold Core.startReadIndex
  split
  · exact h
  · split
    · exact h
    · split
      · exact { h with }
      · exact broadcastAppend { h with }

variable {m : Message} {k : Nat}

section

variable (h : Pending b r)

include h

theorem handleRequestVote (hm : b.sized → m.from_ < 2 ^ 32) :
    Pending b (r.handleRequestVote m) := by
  unfold Core.handleRequestVote
  dsimp only
  split
  · apply send
    split
    · have hvoted := h.persistHardState { r.hard with votedFor := m.from_ }
        fun hs => ⟨(h.fits hs).hard.term, hm hs⟩
      exact { hvoted with }
    · exact { h with }
  · exact h.send _

theorem handleRequestVoteResp (hnext : b.sized → r.lastIndex + 1 < 2 ^ 64) :
    Pending b (r.handleRequestVoteResp m) := by
  unfold Core.handleRequestVoteResp
  split
  · exact h
  · dsimp only
    split
    · exact becomeLeader { h with } hnext
    · exact { h with }

theorem recordMatch (m : Message) : Pending b (r.recordMatch m) :=
  maybeAdvanceCommit { h with }

theorem handleAppendEntriesResp (m : Message) : Pending b (r.handleAppendEntriesResp m) := by
  refine handleAppendEntriesResp_cases m h (fun _ acked => ?_) (fun _ acked next => ?_)
  · have hmatched := recordMatch (r := { r with hbAcked := acked }) { h with } m
    exact { hmatched with }
  · have hsent := sendAppend (r := { r with hbAcked := acked, next_ := next }) { h with } m.from_
    exact { hsent with }

theorem handleInstallSnapshotResp (m : Message) : Pending b (r.handleInstallSnapshotResp m) := by
  unfold Core.handleInstallSnapshotResp
  split
  · exact h
  · split
    · exact h.recordMatch m
    · exact h

theorem heard (m : Message) : Pending b (r.heard m) := by
  unfold Core.heard
  split
  · have hstarter := h.becomeFollower m.from_ fun hs => (h.fits hs).hard.term
    exact { hstarter with }
  · exact { h with }

theorem appendEntry {e : LogEntry} (he : e.index = k + 1)
    (hb : r.base.lastIndex ≤ k) (hk : k ≤ r.lastIndex) (hfits : b.sized → e.Fits) :
    Pending b (r.appendEntry e) ∧ (r.appendEntry e).base = r.base ∧
      k + 1 ≤ (r.appendEntry e).lastIndex := by
  unfold Core.appendEntry
  by_cases hin : e.index ≤ r.lastIndex
  · rw [if_pos hin]
    split
    · exact ⟨h, rfl, he ▸ hin⟩
    · refine ⟨h.conflict (by omega) hin hfits, rfl, ?_⟩
      show k + 1 ≤ r.base.lastIndex + (r.log.take (e.index - r.base.lastIndex - 1) ++ [e]).length
      unfold lastIndex at hin
      rw [length_append, length_take, length_singleton]
      omega
  · rw [if_neg hin]
    refine ⟨h.append (by omega) hfits, rfl, ?_⟩
    show k + 1 ≤ r.base.lastIndex + (r.log ++ [e]).length
    unfold lastIndex at hk
    rw [length_append, length_singleton]
    omega

theorem foldl_appendEntry {es : List LogEntry} (hes : Contiguous k es)
    (hb : r.base.lastIndex ≤ k) (hk : k ≤ r.lastIndex) (hfits : b.sized → ∀ e ∈ es, e.Fits) :
    Pending b (es.foldl Core.appendEntry r) := by
  induction es generalizing r k with
  | nil => exact h
  | cons e es ih =>
    obtain ⟨hnext, hbase, hlast⟩ := h.appendEntry hes.1 hb hk fun hs => hfits hs e mem_cons_self
    exact ih hnext hes.2 (by rw [hbase]; omega) hlast
      fun hs f hf => hfits hs f (mem_cons_of_mem e hf)

theorem acceptEntries (m resp : Message) (prevTerm : Nat) {es : List LogEntry}
    (hes : Contiguous k es) (hb : r.base.lastIndex ≤ k) (hfits : b.sized → ∀ e ∈ es, e.Fits) :
    Pending b (r.acceptEntries m resp k prevTerm es) := by
  unfold Core.acceptEntries
  split
  · split
    · exact h.send _
    · exact h.send _
  · rename_i haccept
    have hfold := h.foldl_appendEntry hes hb (by omega) hfits
    apply send
    split
    · rename_i hcommit
      -- the new commit index may be smaller than the old one, but not than the base
      exact hfold.emit (Nat.le_min.mpr ⟨hfold.le.trans hcommit.le, Nat.le_add_right _ _⟩)
        (Nat.min_le_right _ _)
    · exact hfold

theorem handleAppendEntries (hsound : Contiguous m.prevIndex m.entries)
    (hfits : b.sized → ∀ e ∈ m.entries, e.Fits) :
    Pending b (r.handleAppendEntries m) := by
  have hstart := h.heard m
  rw [handleAppendEntries_heard]
  generalize r.heard m = c at hstart ⊢
  split
  · rename_i hcovered
    split
    · exact hstart.send _
    · rename_i hlong
      apply hstart.acceptEntries _ _ _ _ le_rfl
      · intro hs e he
        exact hfits hs e (mem_of_mem_drop he)
      · have hdrop := hsound.drop (not_le.mp hlong).le
        rw [Nat.add_sub_cancel' hcovered.le] at hdrop
        exact hdrop
  · rename_i hcovered
    exact hstart.acceptEntries _ _ _ hsound (not_lt.mp hcovered) hfits

theorem handleInstallSnapshot
    (hallowed : r.commit < m.snapIndex → b.allowed ⟨m.snapIndex, m.snapTerm, m.snapData⟩)
    (hfits : b.sized → Snapshot.Fits ⟨m.snapIndex, m.snapTerm, m.snapData⟩) :
    Pending b (r.handleInstallSnapshot m) := by
  have hstart := h.heard m
  obtain ⟨_, _, _, _, _, hcommit, _⟩ := r.heard_frame m
  rw [handleInstallSnapshot_heard]
  generalize r.heard m = c at hstart hcommit ⊢
  split
  · exact hstart.send _
  · rename_i hnew
    apply send
    exact { hstart with
      base := rfl
      log := rfl
      newer := hstart.newer.trans (hstart.le.trans (not_le.mp hnew).le)
      contiguous := trivial
      le := le_rfl
      committed := trivial
      emitted := rfl
      commit_le := le_rfl
      installs := fun snap hsnap => by
        cases hsnap
        exact hallowed (hcommit ▸ not_le.mp hnew)
      fits := fun hs => { hstart.fits hs with
        base := hfits hs
        log := nofun } }

theorem step (hsound : m.Sound)
    (hallowed : m.kind = .installSnapshot → r.commit < m.snapIndex →
      b.allowed ⟨m.snapIndex, m.snapTerm, m.snapData⟩) (hnext : b.sized → r.lastIndex + 1 < 2 ^ 64)
    (hfits : b.sized → m.Fits) :
    Pending b (r.step m) := by
  unfold Core.step
  split
  · split
    · exact h.send _
    · exact h.send _
    · exact h.send _
    · exact h
  · dsimp only
    generalize hr' : (if r.hard.term < m.term then r.becomeFollower m.term
      (if m.kind = .appendEntries ∨ m.kind = .installSnapshot then m.from_ else 0) else r) = r'
    have hterm : Pending b r' ∧ r'.lastIndex = r.lastIndex ∧ r'.commit = r.commit := by
      rw [← hr']
      split
      · refine ⟨h.becomeFollower _ fun hs => (hfits hs).term, ?_⟩
        unfold Core.becomeFollower
        split <;> exact ⟨rfl, rfl⟩
      · exact ⟨h, rfl, rfl⟩
    split
    · exact hterm.1.handleRequestVote fun hs => (hfits hs).from_
    · exact hterm.1.handleRequestVoteResp fun hs => hterm.2.1.symm ▸ hnext hs
    · rename_i hkind
      exact hterm.1.handleAppendEntries (hsound hkind) fun hs => (hfits hs).entries
    · exact hterm.1.handleAppendEntriesResp m
    · rename_i hkind
      exact hterm.1.handleInstallSnapshot (hterm.2.2.symm ▸ hallowed hkind)
        fun hs => (hfits hs).snap
    · exact hterm.1.handleInstallSnapshotResp m

theorem perform {op : Op} (hsound : op.Sound) (hallowed : op.Allowed b r)
    (hfits : b.sized → op.Fits r) : Pending b (r.perform op) := by
  cases op with
  | tick => exact h.tick fun hs => (hfits hs).1
  | step m => exact h.step hsound hallowed (fun hs => (hfits hs).1.2) fun hs => (hfits hs).2
  | propose command => exact h.propose (fun hs => (hfits hs).1.2) fun hs => (hfits hs).2
  | startReadIndex ctx => exact h.startReadIndex ctx

theorem foldl_perform {ops : List Op} (hsound : ∀ op ∈ ops, op.Sound)
    (hallowed : ∀ snap, b.allowed snap) (hfits : b.sized → OpsFit r ops) :
    Pending b (ops.foldl Core.perform r) := by
  induction ops generalizing r with
  | nil => exact h
  | cons op ops ih =>
    have hop : op.Allowed b r := Op.allowed_of_forall hallowed
    exact ih (h.perform (hsound op mem_cons_self) hop fun hs => (hfits hs).1)
      (fun op' hop' => hsound op' (mem_cons_of_mem op hop')) fun hs => (hfits hs).2

end

/-! ## Draining. -/

theorem persist (h : Pending b r) : b.storage.persist r.ready = ⟨r.hard, r.base, r.log⟩ := by
  have hhard := b.storage.persist_hard r.ready
  have hsnap := b.storage.persist_snap r.ready
  have hentries := Storage.persist_entries h.stored.pairwise r.ready
  rw [h.hard] at hhard
  rw [h.base] at hsnap
  rw [h.log] at hentries
  rw [← hhard, ← hsnap, ← hentries]

theorem readyFits (h : Pending b r) (hs : b.sized) : r.ready.Fits b.storage := by
  have hfits := h.fits hs
  have hentries : ((b.storage.installed r.ready.snapshotToApply).cut r.ready.truncateFrom).entries ++
      r.ready.entriesToAppend = r.log := by
    have hlog : (b.storage.persist r.ready).entries = r.log := by rw [h.persist]
    rw [Storage.persist_eq] at hlog
    rw [← hlog]
    split <;> rfl
  have hsnap : ((b.storage.installed r.ready.snapshotToApply).cut r.ready.truncateFrom).snap = r.base := by
    rw [Storage.cut_snap, ← h.base]
    cases r.ready.snapshotToApply <;> rfl
  have hcontiguous := h.contiguous
  have hmem := hfits.log
  rw [← hentries] at hcontiguous hmem
  have hinstalled : ∀ snap, r.ready.snapshotToApply = some snap → snap = r.base := by
    intro snap hinstall
    have hbase := h.base
    rw [hinstall] at hbase
    exact hbase
  constructor
  case toFollows =>
    constructor
    case hard =>
      intro hchanged
      have hhard := h.hard
      rw [if_pos hchanged] at hhard
      exact hhard ▸ hfits.hard
    case snap =>
      intro snap hinstall
      rw [hinstalled snap hinstall]
      exact ⟨hfits.base.lastIndex, hfits.base.lastTerm, h.newer⟩
    case entries =>
      dsimp only
      rw [hsnap]
      exact (Contiguous.append_iff.mp hcontiguous).2
  case data =>
    intro snap hinstall
    rw [hinstalled snap hinstall]
    exact hfits.base.data
  case commands => exact fun e he => hmem e (mem_append_right _ he)

end Pending

/-! ## Nothing pending. -/

/-- The storage is the durable part of the core, and `ready` is empty. -/
structure Settled (d : Storage) (r : Core) : Prop where
  storage : d = ⟨r.hard, r.base, r.log⟩
  ready : r.ready = {}
  contiguous : Contiguous r.base.lastIndex r.log
  le : r.base.lastIndex ≤ r.commit
  commit_le : r.commit ≤ r.lastEmitted

namespace Settled

variable {d : Storage} {r : Core}

theorem start (cfg : Config) (h : Contiguous d.snap.lastIndex d.entries) :
    Settled d (Core.start cfg d.hard d.entries d.snap) where
  storage := rfl
  ready := rfl
  contiguous := h
  le := le_rfl
  commit_le := le_rfl

theorem pending (h : Settled d r) {sized : Prop} (allowed : Snapshot → Prop)
    (hfits : sized → DurableFits r.hard r.base r.log r.config.id) :
    Pending ⟨d, r.lastEmitted, sized, allowed⟩ r where
  stored := by rw [h.storage]; exact h.contiguous
  hard := by rw [h.ready, h.storage]; rfl
  base := by rw [h.ready, h.storage]; rfl
  log := by
    rw [h.ready, h.storage]
    exact append_nil _
  newer := by rw [h.storage]
  contiguous := h.contiguous
  le := h.le
  committed := by rw [h.ready]; trivial
  emitted := by unfold emitsFrom; rw [h.ready]; rfl
  commit_le := h.commit_le
  installs := fun snap hsnap => by
    rw [h.ready] at hsnap
    cases hsnap
  fits := hfits

theorem compactTo (h : Settled d r) {applied : Nat} (happlied : applied ≤ r.commit) (data : Bytes) :
    Settled (d.saveSnapshot (r.compactTo applied data).base false) (r.compactTo applied data) ∧
      r.base.lastIndex ≤ (r.compactTo applied data).base.lastIndex := by
  unfold Core.compactTo
  split
  · have hsame : d.saveSnapshot r.base false = d := by
      unfold Storage.saveSnapshot
      rw [h.storage]
      rw [if_neg Bool.false_ne_true, h.contiguous.dropWhile_eq le_rfl, h.contiguous.filter_self]
    rw [hsame]
    exact ⟨h, le_rfl⟩
  · rename_i hnew
    have hle := (not_le.mp hnew).le
    have hdrop := h.contiguous.filter_gt hle
    refine ⟨?_, hle⟩
    exact { h with
      storage := by
        unfold Storage.saveSnapshot
        rw [h.storage]
        rw [if_neg Bool.false_ne_true, h.contiguous.dropWhile_eq hle, hdrop]
      contiguous := by
        show Contiguous applied (r.log.drop (applied - r.base.lastIndex))
        rw [← hdrop]
        exact (h.contiguous.split_above hle).2
      le := happlied }

end Settled

theorem Pending.settled {b : Batch} (h : Pending b r) :
    Settled (b.storage.persist r.ready) r.takeReady.2 where
  storage := h.persist
  ready := rfl
  contiguous := h.contiguous
  le := h.le
  commit_le := h.commit_le

end Flotilla.Raft
