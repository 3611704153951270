/-
  Raft.LogRepair — a leader brings the log of one follower in line.

  `next_` falls by conflict hints until the logs agree before it, and rises by
  batches from then on; a leader that has compacted what the follower needs
  sends its snapshot instead.  The exchange is lossless: every round is one
  `SendAppend`, the follower's answer, and what the leader makes of it.
-/
import Flotilla.Lib.Progress
import Flotilla.Raft.Replication

namespace Flotilla.Raft

open ReplicatedLog

/-! ## The exchange. -/

namespace Core

def lastSent (r : Core) : Message := (r.ready.messages.getLast?).getD {}

@[simp] theorem lastSent_push (r : Core) (m : Message) : (r.push [m]).lastSent = m := by
  simp [lastSent]

/-- The entries above an index, as far as they are not compacted. -/
def above (r : Core) (index : Nat) : List LogEntry := r.log.drop (index - r.base.lastIndex)

end Core

/-- One round between a leader and the follower `p`.  After a refusal the leader sends again at
once: that message is the `SendAppend` of the next round. -/
def round (p : NodeId) (s : Core × Core) : Core × Core :=
  let l := s.1.sendAppend p
  let f := s.2.step l.lastSent
  (l.step f.lastSent, f)

/-! ## The leader's side. -/

namespace Core

/-- What the leader's answers do not touch. -/
structure SameLog (r r' : Core) : Prop where
  config : r'.config = r.config
  hard : r'.hard = r.hard
  role : r'.role = r.role
  base : r'.base = r.base
  log : r'.log = r.log

theorem maybeAdvanceCommit_eq (r : Core) : ∃ c e ready, r.maybeAdvanceCommit =
    { r with commit := c, lastEmitted := e, ready := ready } := by
  unfold maybeAdvanceCommit
  split
  · exact ⟨_, _, _, rfl⟩
  · split
    · exact ⟨_, _, _, rfl⟩
    · exact ⟨_, _, _, rfl⟩

variable {l : Core} {m : Message}

theorem step_success (hrole : l.role = .leader) (hterm : m.term = l.hard.term)
    (hkind : m.kind = .appendEntriesResp ∨ m.kind = .installSnapshotResp)
    (hsuccess : m.success = true) :
    SameLog l (l.step m) ∧
      (l.step m).next_ = l.next_.insert m.from_ (max (l.next_.getD m.from_ 0) (m.matchIndex + 1)) ∧
      (l.step m).match_ = l.match_.insert m.from_ (max (l.match_.getD m.from_ 0) m.matchIndex) := by
  have hnot : ¬ l.role ≠ .leader := fun h => h hrole
  unfold step
  rw [if_neg (by omega), if_neg (by omega)]
  rcases hkind with hkind | hkind
  · rw [hkind]
    unfold handleAppendEntriesResp
    simp only [if_neg hnot, if_pos hsuccess, recordMatch, confirmReads]
    obtain ⟨c, e, ready, heq⟩ := maybeAdvanceCommit_eq
      { l with
        hbAcked := l.hbAcked.insert m.from_ (max (l.hbAcked.getD m.from_ 0) m.hbSeq)
        match_ := l.match_.insert m.from_ (max (l.match_.getD m.from_ 0) m.matchIndex)
        next_ := l.next_.insert m.from_ (max (l.next_.getD m.from_ 0) (m.matchIndex + 1)) }
    rw [heq]
    exact ⟨⟨rfl, rfl, rfl, rfl, rfl⟩, rfl, rfl⟩
  · rw [hkind]
    unfold handleInstallSnapshotResp
    simp only [if_neg hnot, if_pos hsuccess, recordMatch]
    obtain ⟨c, e, ready, heq⟩ := maybeAdvanceCommit_eq
      { l with
        match_ := l.match_.insert m.from_ (max (l.match_.getD m.from_ 0) m.matchIndex)
        next_ := l.next_.insert m.from_ (max (l.next_.getD m.from_ 0) (m.matchIndex + 1)) }
    rw [heq]
    exact ⟨⟨rfl, rfl, rfl, rfl, rfl⟩, rfl, rfl⟩

theorem step_refused (hrole : l.role = .leader) (hterm : m.term = l.hard.term)
    (hkind : m.kind = .appendEntriesResp) (hsuccess : m.success = false) (hhint : m.hintIndex ≠ 0) :
    SameLog l (l.step m) ∧
      (l.step m).next_ = l.next_.insert m.from_
        (max 1 (min m.hintIndex (l.next_.getD m.from_ 0 - 1))) ∧
      (l.step m).match_ = l.match_ := by
  have hnot : ¬ l.role ≠ .leader := fun h => h hrole
  have hrefused : ¬ m.success = true := by
    rw [hsuccess]
    exact Bool.false_ne_true
  unfold step
  rw [if_neg (by omega), if_neg (by omega), hkind]
  unfold handleAppendEntriesResp
  simp only [if_neg hnot, if_neg hrefused, if_pos hhint, sendAppend_eq]
  exact ⟨⟨rfl, rfl, rfl, rfl, rfl⟩, rfl, rfl⟩

theorem takeBatch_ne_nil {maxEntries : Nat} (hmax : 1 ≤ maxEntries) (maxBytes : Nat)
    {es : List LogEntry} (hne : es ≠ []) : takeBatch maxEntries maxBytes 0 0 es ≠ [] := by
  cases es with
  | nil => exact absurd rfl hne
  | cons e es =>
    unfold takeBatch
    rw [if_neg (by omega), if_neg (by omega)]
    exact cons_ne_nil _ _

end Core

/-! ## The follower's side. -/

/-- The follower's log is a window of `full`, which matches the leader's log `L`. -/
structure FollowerLog (L full : List LogEntry) (f : Core) : Prop where
  window : Window f.base f.log full
  indexed : Indexed full
  matching : Core.Matching full L

namespace Core

theorem appendEntry_log (r : Core) (e : LogEntry) : (r.appendEntry e).log =
    if e.index ≤ r.lastIndex then
      if r.termAt e.index = e.term then r.log
      else r.log.take (e.index - r.base.lastIndex - 1) ++ [e]
    else r.log ++ [e] := by
  unfold appendEntry
  split
  · split
    · rfl
    · rfl
  · rfl

theorem foldl_appendEntry_congr {r r' : Core} (hbase : r'.base = r.base) (hlog : r'.log = r.log)
    (es : List LogEntry) : (es.foldl appendEntry r').log = (es.foldl appendEntry r).log := by
  induction es generalizing r r' with
  | nil => exact hlog
  | cons e es ih =>
    obtain ⟨_, _, _, heq⟩ := r.appendEntry_eq e
    obtain ⟨_, _, _, heq'⟩ := r'.appendEntry_eq e
    have hlast : r'.lastIndex = r.lastIndex := by
      unfold lastIndex
      rw [hbase, hlog]
    have hterm : r'.termAt e.index = r.termAt e.index := by
      unfold termAt entryAt
      rw [hlast, hbase, hlog]
    apply ih
    · rw [heq, heq']
      exact hbase
    · rw [appendEntry_log, appendEntry_log, hlast, hterm, hbase, hlog]

theorem window_foldl_appendEntry {r : Core} {full L : List LogEntry} (h : FollowerLog L full r)
    (hL : Indexed L) {prev : Nat} (hb : r.base.lastIndex ≤ prev) (hpre : L.take prev <+: full)
    {n : Nat} (hn : prev + n ≤ L.length) :
    Window r.base (((L.drop prev).take n).foldl appendEntry r).log
      (merge full (L.take (prev + n))) := by
  -- the same core with nothing pending, over a storage that holds its log
  obtain ⟨r₀, hr₀⟩ : ∃ r₀ : Core, r₀ = { r with ready := {} } := ⟨_, rfl⟩
  have hbase : r₀.base = r.base := by rw [hr₀]
  have hlog : r₀.log = r.log := by rw [hr₀]
  have hdisk : OnDisk { snap := r.base, entries := r.log } r₀ full := by
    rw [hr₀]
    refine ⟨?_, le_refl _⟩
    show Window r.base (r.log ++ []) full
    rw [append_nil]
    exact h.window
  have hwindow : Window r₀.base r₀.log full := by
    rw [hbase, hlog]
    exact h.window
  have hloop := (foldl_appendEntry hwindow hdisk h.indexed hL h.matching (by rw [hbase]; exact hb)
    hpre n hn rfl).1
  obtain ⟨_, _, _, heq⟩ := r₀.foldl_appendEntry_eq ((L.drop prev).take n)
  have hkept : (((L.drop prev).take n).foldl appendEntry r₀).base = r.base := by
    rw [heq]
    exact hbase
  rw [hkept, foldl_appendEntry_congr hbase hlog] at hloop
  exact hloop

end Core

theorem FollowerLog.merge {L full : List LogEntry} {f f' : Core} (h : FollowerLog L full f)
    (hL : Indexed L) (n : Nat) (hwindow : Window f'.base f'.log (merge full (L.take n))) :
    FollowerLog L (ReplicatedLog.merge full (L.take n)) f' := by
  refine ⟨hwindow, ?_, ?_⟩
  · by_cases hc : L.take n <+: full
    · rw [merge_eq_left hc]
      exact h.indexed
    · rw [merge_eq_right hc]
      exact hL.restrict (List.take_prefix _ _)
  · by_cases hc : L.take n <+: full
    · rw [merge_eq_left hc]
      exact h.matching
    · rw [merge_eq_right hc]
      intro k hk _ _
      rw [length_take] at hk
      rw [take_take, Nat.min_eq_left (by omega)]

theorem FollowerLog.congr {L full : List LogEntry} {f f' : Core} (h : FollowerLog L full f)
    (hbase : f'.base = f.base) (hlog : f'.log = f.log) : FollowerLog L full f' := by
  refine ⟨?_, h.indexed, h.matching⟩
  rw [hbase, hlog]
  exact h.window

namespace Core

variable {f : Core} {m : Message} {L full : List LogEntry}

/-- A message with what `Send` fills in. -/
def signed (r : Core) (m : Message) : Message :=
  { m with from_ := r.config.id, term := r.hard.term }

theorem send_signed (r : Core) (m : Message) : r.send m = r.push [r.signed m] := rfl

theorem heard_same (hrole : f.role ≠ .leader) (m : Message) :
    (f.heard m).config = f.config ∧ (f.heard m).hard = f.hard ∧ (f.heard m).role ≠ .leader ∧
      (f.heard m).base = f.base ∧ (f.heard m).log = f.log ∧ (f.heard m).commit = f.commit := by
  obtain ⟨hc, hh, hlead, hbase, hlog, hcommit, _⟩ := f.heard_frame m
  exact ⟨hc, hh, fun hl => hrole (hlead hl), hbase, hlog, hcommit⟩

theorem signed_heard (hrole : f.role ≠ .leader) (m m' : Message) :
    (f.heard m).signed m' = f.signed m' := by
  obtain ⟨hc, hh, _⟩ := heard_same hrole m
  unfold signed
  rw [hc, hh]

/-- What the follower keeps when it answers. -/
structure SameFollower (f f' : Core) : Prop where
  config : f'.config = f.config
  hard : f'.hard = f.hard
  role : f'.role ≠ .leader

theorem acceptEntries_accepted {r : Core} (hrole : r.role ≠ .leader) (h : FollowerLog L full r)
    (hL : Indexed L) {start k : Nat} (hb : r.base.lastIndex ≤ start) (hpre : L.take start <+: full)
    (hk : start + k ≤ L.length) (m resp : Message) :
    ∃ r', r.acceptEntries m resp start (r.termAt start) ((L.drop start).take k) =
        r'.push [r.signed { resp with success := true, matchIndex := start + k }] ∧
      SameFollower r r' ∧ r'.base = r.base ∧
      FollowerLog L (merge full (L.take (start + k))) r' := by
  have hlen : start ≤ full.length := by
    have := hpre.length_le
    rw [length_take] at this
    omega
  have hpasses : ¬ (r.lastIndex < start ∨ r.termAt start ≠ r.termAt start) := by
    rw [h.window.lastIndex_eq]
    rintro (hlt | hne)
    · omega
    · exact hne rfl
  have htaken : ((L.drop start).take k).length = k := by
    rw [length_take, length_drop]
    omega
  have hwindow := window_foldl_appendEntry h hL hb hpre hk
  obtain ⟨log, tf, es, hloop⟩ := r.foldl_appendEntry_eq ((L.drop start).take k)
  unfold acceptEntries
  rw [if_neg hpasses, htaken, hloop]
  rw [hloop] at hwindow
  simp only [send_eq]
  split
  · exact ⟨_, rfl, ⟨rfl, rfl, hrole⟩, rfl, h.merge hL _ hwindow⟩
  · exact ⟨_, rfl, ⟨rfl, rfl, hrole⟩, rfl, h.merge hL _ hwindow⟩

theorem step_appendEntries (hterm : m.term = f.hard.term) (hkind : m.kind = .appendEntries) :
    f.step m = f.handleAppendEntries m := by
  unfold step
  rw [if_neg (by omega), if_neg (by omega), hkind]

theorem step_installSnapshot (hterm : m.term = f.hard.term) (hkind : m.kind = .installSnapshot) :
    f.step m = f.handleInstallSnapshot m := by
  unfold step
  rw [if_neg (by omega), if_neg (by omega), hkind]

theorem installSnapshot_stale (hrole : f.role ≠ .leader) (hstale : m.snapIndex ≤ f.commit) :
    f.handleInstallSnapshot m = (f.heard m).push [f.signed (snapshotResp m f.commit)] := by
  obtain ⟨_, _, _, _, _, hcommit⟩ := heard_same hrole m
  rw [handleInstallSnapshot_heard, hcommit, if_pos hstale, send_signed, signed_heard hrole]

theorem installSnapshot_fresh (hrole : f.role ≠ .leader) (hfresh : ¬ m.snapIndex ≤ f.commit) :
    ∃ f', f.handleInstallSnapshot m = f'.push [f.signed (snapshotResp m m.snapIndex)] ∧
      SameFollower f f' ∧ f'.base = ⟨m.snapIndex, m.snapTerm, m.snapData⟩ ∧ f'.log = [] := by
  obtain ⟨hc, hh, hr, _, _, hcommit⟩ := heard_same hrole m
  rw [handleInstallSnapshot_heard, hcommit, if_neg hfresh, send_signed]
  exact ⟨_, congrArg (fun m' => push _ [m']) (signed_heard hrole m _), ⟨hc, hh, hr⟩, rfl, rfl⟩

theorem firstOfTerm_pos (r : Core) (ct : Nat) {i : Nat} (hi : 0 < i) : 0 < firstOfTerm r ct i := by
  induction i with
  | zero => omega
  | succ i ih =>
    unfold firstOfTerm
    split
    · next hback => exact ih (by omega)
    · omega

section

variable (hrole : f.role ≠ .leader) (h : FollowerLog L full f) (hL : Indexed L) {prev n : Nat}
  (hprev : m.prevIndex = prev) (hprevTerm : m.prevTerm = termOf LogEntry.term L prev)
  (hentries : m.entries = (L.drop prev).take n) (hn : prev + n ≤ L.length)

include hrole hprev

include hentries hn in
theorem appendEntries_covered (hbelow : prev < f.base.lastIndex)
    (hcovered : prev + n ≤ f.base.lastIndex) :
    f.handleAppendEntries m = (f.heard m).push [f.signed { appendResp m with
      success := true, matchIndex := f.base.lastIndex }] := by
  obtain ⟨_, _, _, hbase, _⟩ := heard_same hrole m
  have hlength : m.entries.length = n := by
    rw [hentries, length_take, length_drop]
    omega
  rw [handleAppendEntries_heard, hbase, if_pos (by omega), if_pos (by omega), hprev, hlength,
    Nat.max_eq_left hcovered, send_signed, signed_heard hrole]

include hprevTerm h in
theorem appendEntries_refused (hb : f.base.lastIndex ≤ prev)
    (hrefused : full.length < prev ∨
      termOf LogEntry.term full prev ≠ termOf LogEntry.term L prev) (hpos : 0 < prev) :
    ∃ hint, 0 < hint ∧ f.handleAppendEntries m = (f.heard m).push [f.signed { appendResp m with
      success := false, hintIndex := hint }] := by
  obtain ⟨_, _, _, hbase, hlog, _⟩ := heard_same hrole m
  have hheard : FollowerLog L full (f.heard m) := h.congr hbase hlog
  have hrefuses : (f.heard m).lastIndex < prev ∨ (f.heard m).termAt prev ≠ m.prevTerm := by
    rw [hheard.window.lastIndex_eq, hprevTerm]
    by_cases hlt : full.length < prev
    · exact .inl hlt
    · right
      rw [hheard.window.termAt_eq (by rw [hbase]; exact hb) (by omega)]
      exact hrefused.resolve_left hlt
  rw [handleAppendEntries_heard, hbase, if_neg (by omega), hprev]
  unfold acceptEntries
  rw [if_pos hrefuses]
  split
  · refine ⟨(f.heard m).lastIndex + 1, Nat.succ_pos _, ?_⟩
    rw [← signed_heard hrole m]
    rfl
  · refine ⟨_, firstOfTerm_pos (f.heard m) ((f.heard m).termAt prev) hpos, ?_⟩
    rw [← signed_heard hrole m]
    rfl

include h hL hentries hn hprevTerm in
theorem appendEntries_accepted (hb : f.base.lastIndex ≤ prev ∨ f.base.lastIndex < prev + n)
    (hpre : L.take (max f.base.lastIndex prev) <+: full) :
    ∃ f', f.handleAppendEntries m = f'.push [f.signed { appendResp m with
        success := true, matchIndex := prev + n }] ∧
      SameFollower f f' ∧ f'.base = f.base ∧
      FollowerLog L (merge full (L.take (prev + n))) f' := by
  obtain ⟨hc, hh, hr, hbase, hlog, _⟩ := heard_same hrole m
  have hheard : FollowerLog L full (f.heard m) := h.congr hbase hlog
  rw [handleAppendEntries_heard, hbase, hprev, hentries]
  by_cases hbelow : prev < f.base.lastIndex
  · -- what the base covers is cut off
    obtain ⟨k, hk⟩ : ∃ k, prev + n = f.base.lastIndex + k := ⟨prev + n - f.base.lastIndex, by omega⟩
    have hdrop : ((L.drop prev).take n).drop (f.base.lastIndex - prev) =
        (L.drop f.base.lastIndex).take k := by
      rw [drop_take, drop_drop]
      congr 1
      · omega
      · congr 1
        omega
    have hlength : ((L.drop prev).take n).length = n := by
      rw [length_take, length_drop]
      omega
    have hbaseTerm : f.base.lastTerm = (f.heard m).termAt f.base.lastIndex := by
      unfold termAt
      rw [hbase, if_pos rfl]
    rw [Nat.max_eq_left (by omega)] at hpre
    obtain ⟨f', hacc, hsame, hbase', hlog'⟩ := @acceptEntries_accepted L full (f.heard m) hr hheard
      hL f.base.lastIndex k (le_of_eq (by rw [hbase])) hpre (by omega) m (appendResp m)
    rw [if_pos hbelow, hlength, if_neg (by omega), hdrop, hbaseTerm, hacc, signed_heard hrole, hk]
    exact ⟨f', rfl, ⟨hsame.config.trans hc, hsame.hard.trans hh, hsame.role⟩, hbase'.trans hbase,
      hlog'⟩
  · rw [Nat.max_eq_right (by omega)] at hpre
    have hlenL : prev ≤ (L.take prev).length := by
      rw [length_take]
      omega
    have hagree : termOf LogEntry.term L prev = (f.heard m).termAt prev := by
      rw [hheard.window.termAt_eq (by rw [hbase]; omega) (hlenL.trans hpre.length_le),
        prefix_termOf LogEntry.term hpre hlenL,
        prefix_termOf LogEntry.term (List.take_prefix prev L) hlenL]
    obtain ⟨f', hacc, hsame, hbase', hlog'⟩ := @acceptEntries_accepted L full (f.heard m) hr hheard
      hL prev n (by rw [hbase]; omega) hpre hn m (appendResp m)
    rw [if_neg hbelow, hprevTerm, hagree, hacc, signed_heard hrole]
    exact ⟨f', rfl, ⟨hsame.config.trans hc, hsame.hard.trans hh, hsame.role⟩, hbase'.trans hbase,
      hlog'⟩

end

end Core

/-! ## The two phases. -/

/-- A leader with the full log `L`, and a follower `p` of the same term. -/
structure Repair (L : List LogEntry) (p : NodeId) (l f : Core) : Prop where
  leader : l.role = .leader
  follower : f.role ≠ .leader
  term : f.hard.term = l.hard.term
  id : f.config.id = p
  batch : 1 ≤ l.config.maxEntriesPerMsg
  window : Window l.base l.log L
  indexed : Indexed L
  match_le : l.match_.getD p 0 ≤ L.length

/-- What the follower has committed is all that is known to agree. -/
structure Searching (L full : List LogEntry) (p : NodeId) (l f : Core) : Prop where
  next_pos : 1 ≤ l.next_.getD p 0
  next_le : l.next_.getD p 0 ≤ L.length + 1
  base_le : f.base.lastIndex ≤ f.commit
  commit_le : f.commit ≤ full.length
  committed : full.take f.commit <+: L

/-- The logs agree up to `k`, and the next message begins behind it. -/
structure Agreeing (L full : List LogEntry) (p : NodeId) (k : Nat) (l f : Core) : Prop where
  next_eq : l.next_.getD p 0 = k + 1
  leader_base : l.base.lastIndex ≤ k
  follower_base : f.base.lastIndex ≤ k
  le_length : k ≤ L.length
  agrees : L.take k <+: full
  le_match : k ≤ l.match_.getD p 0

section

variable {L full : List LogEntry} {p : NodeId} {l f f' : Core} {m : Message}

theorem Searching.prefix_committed (hs : Searching L full p l f) {i : Nat} (hi : i ≤ f.commit) :
    i ≤ L.length ∧ L.take i <+: full := by
  have hlen : f.commit ≤ (full.take f.commit).length := by
    rw [length_take]
    have := hs.commit_le
    omega
  have hcommit : f.commit ≤ L.length := hlen.trans hs.committed.length_le
  have heq : L.take f.commit = full.take f.commit := by
    rw [prefix_take_eq hs.committed hlen, take_take, Nat.min_self]
  refine ⟨by omega, ?_⟩
  calc L.take i <+: L.take f.commit := take_prefix_take_left hi
    _ = full.take f.commit := heq
    _ <+: full := List.take_prefix _ _

section

variable (h : Repair L p l f) (hsame : Core.SameFollower f f')

include h hsame

theorem Repair.answered {ms : List Message} {l' : Core} (hlog : Core.SameLog (l.push ms) l')
    (hle : l'.match_.getD p 0 ≤ L.length) : Repair L p l' f' where
  leader := hlog.role.trans h.leader
  follower := hsame.role
  term := by rw [hsame.hard, hlog.hard]; exact h.term
  id := by rw [hsame.config]; exact h.id
  batch := by rw [hlog.config]; exact h.batch
  window := by rw [hlog.base, hlog.log]; exact h.window
  indexed := h.indexed
  match_le := hle

theorem Repair.success (hkind : m.kind = .appendEntriesResp ∨ m.kind = .installSnapshotResp)
    (hsuccess : m.success = true) (hle : m.matchIndex ≤ L.length) (ms : List Message) :
    Repair L p ((l.push ms).step (f.signed m)) f' ∧
      ((l.push ms).step (f.signed m)).base = l.base ∧
      ((l.push ms).step (f.signed m)).next_.getD p 0 = max (l.next_.getD p 0) (m.matchIndex + 1) ∧
      ((l.push ms).step (f.signed m)).match_.getD p 0 = max (l.match_.getD p 0) m.matchIndex := by
  obtain ⟨hlog, hnext, hmatch⟩ := @Core.step_success (l.push ms) (f.signed m) h.leader h.term hkind
    hsuccess
  have hfrom : (f.signed m).from_ = p := h.id
  rw [hfrom] at hnext hmatch
  have hmatch' : ((l.push ms).step (f.signed m)).match_.getD p 0 =
      max (l.match_.getD p 0) m.matchIndex := by
    rw [hmatch]
    exact UnorderedMap.getD_insert_self _ _ _ _
  refine ⟨?_, hlog.base, ?_, hmatch'⟩
  · refine h.answered hsame hlog ?_
    rw [hmatch']
    exact max_le h.match_le hle
  · rw [hnext]
    exact UnorderedMap.getD_insert_self _ _ _ _

theorem Repair.refused (hkind : m.kind = .appendEntriesResp) (hsuccess : m.success = false)
    (hhint : 0 < m.hintIndex) (ms : List Message) :
    Repair L p ((l.push ms).step (f.signed m)) f' ∧
      ((l.push ms).step (f.signed m)).next_.getD p 0 =
        max 1 (min m.hintIndex (l.next_.getD p 0 - 1)) := by
  obtain ⟨hlog, hnext, hmatch⟩ := @Core.step_refused (l.push ms) (f.signed m) h.leader h.term hkind
    hsuccess (Nat.ne_of_gt hhint)
  have hfrom : (f.signed m).from_ = p := h.id
  rw [hfrom] at hnext
  constructor
  · refine h.answered hsame hlog ?_
    rw [hmatch]
    exact h.match_le
  · rw [hnext]
    exact UnorderedMap.getD_insert_self _ _ _ _

theorem Repair.agreeing (hkind : m.kind = .appendEntriesResp ∨ m.kind = .installSnapshotResp)
    (hsuccess : m.success = true) {k : Nat} (hk : m.matchIndex = k) (hle : k ≤ L.length)
    (hnext : l.next_.getD p 0 ≤ k + 1) (hlbase : l.base.lastIndex ≤ k)
    (hfbase : f'.base.lastIndex ≤ k) {full' : List LogEntry} (hagrees : L.take k <+: full')
    (ms : List Message) :
    Repair L p ((l.push ms).step (f.signed m)) f' ∧
      Agreeing L full' p k ((l.push ms).step (f.signed m)) f' := by
  obtain ⟨hrepair, hbase, hnext', hmatch'⟩ := h.success hsame hkind hsuccess (by omega) ms
  refine ⟨hrepair, ?_⟩
  constructor
  case next_eq => rw [hnext', hk]; omega
  case leader_base => rw [hbase]; exact hlbase
  case follower_base => exact hfbase
  case le_length => exact hle
  case agrees => exact hagrees
  case le_match =>
    rw [hmatch', hk]
    exact le_max_right _ _

end

theorem round_eq (p : NodeId) (l f : Core) : round p (l, f) =
    ((l.push [l.appendMessage p]).step (f.step (l.appendMessage p)).lastSent,
      f.step (l.appendMessage p)) := by
  unfold round
  simp only [Core.sendAppend_eq, Core.lastSent_push]

theorem Repair.appendMessage (h : Repair L p l f) (hbase : l.base.lastIndex < l.next_.getD p 0)
    (hle : l.next_.getD p 0 ≤ L.length + 1) :
    ∃ n, l.next_.getD p 0 - 1 + n ≤ L.length ∧ (l.next_.getD p 0 ≤ L.length → 0 < n) ∧
      (l.appendMessage p).kind = .appendEntries ∧ (l.appendMessage p).term = f.hard.term ∧
      (l.appendMessage p).prevIndex = l.next_.getD p 0 - 1 ∧
      (l.appendMessage p).prevTerm = termOf LogEntry.term L (l.next_.getD p 0 - 1) ∧
      (l.appendMessage p).entries = (L.drop (l.next_.getD p 0 - 1)).take n := by
  obtain ⟨batch, hbatch⟩ : ∃ batch, batch = Core.takeBatch l.config.maxEntriesPerMsg
      l.config.maxBytesPerMsg 0 0 (L.drop (l.next_.getD p 0 - 1)) := ⟨_, rfl⟩
  have hpre : batch <+: L.drop (l.next_.getD p 0 - 1) := by
    rw [hbatch]
    exact takeBatch_prefix_self _ _ _ _ _
  have hdrop : l.log.drop (l.next_.getD p 0 - l.base.lastIndex - 1) =
      L.drop (l.next_.getD p 0 - 1) := by
    rw [h.window.log_eq, drop_drop]
    congr 1
    omega
  have hlen := hpre.length_le
  rw [length_drop] at hlen
  refine ⟨batch.length, by omega, ?_, ?_⟩
  · intro hmore
    have hne : L.drop (l.next_.getD p 0 - 1) ≠ [] := by
      intro hnil
      have := congrArg List.length hnil
      rw [length_drop, length_nil] at this
      omega
    rw [hbatch]
    exact List.length_pos_iff.mpr (Core.takeBatch_ne_nil h.batch _ hne)
  · unfold Core.appendMessage
    simp only [if_neg (Nat.not_le_of_lt hbase), hdrop, ← hbatch]
    refine ⟨trivial, h.term.symm, trivial, ?_, ?_⟩
    · exact h.window.termAt_eq (by omega) (by omega)
    · exact List.prefix_iff_eq_take.mp hpre

/-! ## One round. -/

/-- Both sides after a round. -/
def Phase (L : List LogEntry) (p : NodeId) (s : Core × Core) (phase : List LogEntry → Prop) : Prop :=
  Repair L p s.1 s.2 ∧ ∃ full, FollowerLog L full s.2 ∧ phase full

theorem Repair.round_agreeing (h : Repair L p l f) (hF : FollowerLog L full f) {k : Nat}
    (ha : Agreeing L full p k l f) :
    ∃ k', k ≤ k' ∧ (k < L.length → k < k') ∧ Phase L p (round p (l, f)) fun full' =>
      Agreeing L full' p k' (round p (l, f)).1 (round p (l, f)).2 := by
  have hnext := ha.next_eq
  have hlbase := ha.leader_base
  have hfbase := ha.follower_base
  have hle := ha.le_length
  obtain ⟨n, hn, hmore, hkind, hterm, hprev, hprevTerm, hentries⟩ :=
    h.appendMessage (by omega) (by omega)
  rw [hnext, Nat.add_sub_cancel] at hn hprev hprevTerm hentries
  have hpre : L.take (max f.base.lastIndex k) <+: full := by
    rw [Nat.max_eq_right hfbase]
    exact ha.agrees
  obtain ⟨f', hstep, hsame, hbase, hlog⟩ := Core.appendEntries_accepted h.follower hF h.indexed
    hprev hprevTerm hentries hn (.inl hfbase) hpre
  rw [round_eq, Core.step_appendEntries hterm hkind, hstep, Core.lastSent_push]
  refine ⟨k + n, by omega, fun hlt => by have := hmore (by omega); omega, ?_⟩
  obtain ⟨hrepair, hagree⟩ := @Repair.agreeing L p l f (f'.push _)
    { Core.appendResp (l.appendMessage p) with success := true, matchIndex := k + n } h
    ⟨hsame.config, hsame.hard, hsame.role⟩ (.inl rfl) rfl (k + n) rfl hn (by omega) (by omega)
    (show f'.base.lastIndex ≤ k + n by rw [hbase]; omega) _ (prefix_merge full (L.take (k + n)))
    [l.appendMessage p]
  exact ⟨hrepair, _, hlog.congr rfl rfl, hagree⟩

theorem Repair.round_snapshot (h : Repair L p l f) (hF : FollowerLog L full f)
    (hs : Searching L full p l f) (hsnap : l.next_.getD p 0 ≤ l.base.lastIndex) :
    ∃ k, Phase L p (round p (l, f)) fun full' =>
      Agreeing L full' p k (round p (l, f)).1 (round p (l, f)).2 := by
  have hmsg : l.appendMessage p =
      { kind := .installSnapshot, from_ := l.config.id, to_ := p, term := l.hard.term,
        snapIndex := l.base.lastIndex, snapTerm := l.base.lastTerm, snapData := l.base.data } := by
    unfold Core.appendMessage
    exact if_pos hsnap
  have hkind : (l.appendMessage p).kind = .installSnapshot := by rw [hmsg]
  have hterm : (l.appendMessage p).term = f.hard.term := by rw [hmsg]; exact h.term.symm
  have hindex : (l.appendMessage p).snapIndex = l.base.lastIndex := by rw [hmsg]
  have hlbase := h.window.le
  rw [round_eq, Core.step_installSnapshot hterm hkind]
  by_cases hstale : l.base.lastIndex ≤ f.commit
  · obtain ⟨hc, hh, hr, hbase, hlog, _⟩ := Core.heard_same h.follower (l.appendMessage p)
    rw [Core.installSnapshot_stale h.follower (by rw [hindex]; exact hstale), Core.lastSent_push]
    obtain ⟨hle, hpre⟩ := hs.prefix_committed (le_refl f.commit)
    obtain ⟨hrepair, hagree⟩ := @Repair.agreeing L p l f ((f.heard (l.appendMessage p)).push _)
      (Core.snapshotResp (l.appendMessage p) f.commit) h ⟨hc, hh, hr⟩ (.inr rfl) rfl f.commit rfl
      hle (by omega) hstale
      (show (f.heard (l.appendMessage p)).base.lastIndex ≤ f.commit by rw [hbase]; exact hs.base_le)
      full hpre [l.appendMessage p]
    exact ⟨f.commit, hrepair, full, hF.congr hbase hlog, hagree⟩
  · obtain ⟨f', hstep, hsame, hbase, hlog⟩ :=
      @Core.installSnapshot_fresh f (l.appendMessage p) h.follower (by rw [hindex]; exact hstale)
    rw [hstep, Core.lastSent_push, hindex]
    have hlen : (L.take l.base.lastIndex).length = l.base.lastIndex := by
      rw [length_take]
      omega
    have hwindow : Window f'.base f'.log (L.take l.base.lastIndex) := by
      rw [hbase, hlog, hmsg]
      constructor
      case le => exact le_of_eq hlen.symm
      case log_eq =>
        symm
        apply List.drop_eq_nil_of_le
        exact le_of_eq hlen
      case term_eq =>
        show l.base.lastTerm = _
        rw [h.window.term_eq]
        exact prefix_termOf LogEntry.term (List.take_prefix _ _) (le_of_eq hlen.symm)
    have hmatching : Core.Matching (L.take l.base.lastIndex) L := by
      intro i hi _ _
      rw [take_take, Nat.min_eq_left (by omega)]
    obtain ⟨hrepair, hagree⟩ := @Repair.agreeing L p l f (f'.push _)
      (Core.snapshotResp (l.appendMessage p) l.base.lastIndex) h
      ⟨hsame.config, hsame.hard, hsame.role⟩ (.inr rfl) rfl l.base.lastIndex rfl hlbase (by omega)
      (le_refl _) (show f'.base.lastIndex ≤ l.base.lastIndex by rw [hbase, hindex]) _
      prefix_rfl [l.appendMessage p]
    exact ⟨l.base.lastIndex, hrepair, _,
      ⟨hwindow, h.indexed.restrict (List.take_prefix _ _), hmatching⟩, hagree⟩

theorem Repair.round_searching (h : Repair L p l f) (hF : FollowerLog L full f)
    (hs : Searching L full p l f) :
    (∃ k, Phase L p (round p (l, f)) fun full' =>
      Agreeing L full' p k (round p (l, f)).1 (round p (l, f)).2) ∨
    (Phase L p (round p (l, f)) fun full' =>
      Searching L full' p (round p (l, f)).1 (round p (l, f)).2 ∧
        (round p (l, f)).1.next_.getD p 0 < l.next_.getD p 0) := by
  by_cases hsnap : l.next_.getD p 0 ≤ l.base.lastIndex
  · exact .inl (h.round_snapshot hF hs hsnap)
  have hpos := hs.next_pos
  have hnextLe := hs.next_le
  obtain ⟨n, hn, _, hkind, hterm, hprev, hprevTerm, hentries⟩ := h.appendMessage (by omega) hnextLe
  obtain ⟨prev, hprevEq⟩ : ∃ prev, prev = l.next_.getD p 0 - 1 := ⟨_, rfl⟩
  rw [← hprevEq] at hn hprev hprevTerm hentries
  obtain ⟨hc, hh, hr, hbase, hlog, hcommit⟩ := Core.heard_same h.follower (l.appendMessage p)
  obtain ⟨hbaseLe, hbasePre⟩ := hs.prefix_committed hs.base_le
  rw [round_eq, Core.step_appendEntries hterm hkind]
  by_cases hcovered : prev < f.base.lastIndex ∧ prev + n ≤ f.base.lastIndex
  · -- the follower has compacted all of it
    left
    rw [Core.appendEntries_covered h.follower hprev hentries hn hcovered.1 hcovered.2,
      Core.lastSent_push]
    obtain ⟨hrepair, hagree⟩ := @Repair.agreeing L p l f ((f.heard (l.appendMessage p)).push _)
      { Core.appendResp (l.appendMessage p) with success := true, matchIndex := f.base.lastIndex } h
      ⟨hc, hh, hr⟩ (.inl rfl) rfl f.base.lastIndex rfl hbaseLe (by omega) (by omega)
      (show (f.heard (l.appendMessage p)).base.lastIndex ≤ f.base.lastIndex by rw [hbase])
      full hbasePre [l.appendMessage p]
    exact ⟨f.base.lastIndex, hrepair, full, hF.congr hbase hlog, hagree⟩
  by_cases hrefused : f.base.lastIndex ≤ prev ∧ (full.length < prev ∨
      termOf LogEntry.term full prev ≠ termOf LogEntry.term L prev)
  · -- the logs differ before the message, which is above what is committed
    right
    have hprevPos : 0 < prev := by
      rcases Nat.eq_zero_or_pos prev with hzero | hpos
      · rw [hzero] at hrefused
        rcases hrefused.2 with hlt | hne
        · omega
        · exact absurd rfl hne
      · exact hpos
    obtain ⟨hint, hhint, hstep⟩ := Core.appendEntries_refused h.follower hF hprev hprevTerm
      hrefused.1 hrefused.2 hprevPos
    rw [hstep, Core.lastSent_push]
    obtain ⟨hrepair, hnext⟩ := @Repair.refused L p l f ((f.heard (l.appendMessage p)).push _)
      { Core.appendResp (l.appendMessage p) with success := false, hintIndex := hint } h
      ⟨hc, hh, hr⟩ rfl rfl hhint [l.appendMessage p]
    replace hnext : _ = max 1 (min hint (l.next_.getD p 0 - 1)) := hnext
    refine ⟨hrepair, full, hF.congr hbase hlog, ?_, ?_⟩
    · constructor
      case next_pos => exact hnext.symm ▸ le_max_left _ _
      case next_le =>
        rw [hnext]
        omega
      case base_le =>
        show (f.heard (l.appendMessage p)).base.lastIndex ≤ (f.heard (l.appendMessage p)).commit
        rw [hbase, hcommit]
        exact hs.base_le
      case commit_le => exact hcommit.trans_le hs.commit_le
      case committed =>
        show full.take (f.heard (l.appendMessage p)).commit <+: L
        rw [hcommit]
        exact hs.committed
    · show _ < _
      rw [hnext]
      omega
  · left
    have hpre : L.take (max f.base.lastIndex prev) <+: full := by
      by_cases hbelow : prev < f.base.lastIndex
      · rw [Nat.max_eq_left (by omega)]
        exact hbasePre
      · rw [Nat.max_eq_right (by omega)]
        cases prev with
        | zero => exact nil_prefix
        | succ i =>
          have hagree : i + 1 ≤ full.length ∧
              termOf LogEntry.term full (i + 1) = termOf LogEntry.term L (i + 1) := by
            by_contra hno
            apply hrefused
            refine ⟨by omega, ?_⟩
            by_cases hlt : full.length < i + 1
            · exact .inl hlt
            · exact .inr fun heq => hno ⟨by omega, heq⟩
          rw [← hF.matching i (by omega) (by omega) hagree.2]
          exact List.take_prefix _ _
    obtain ⟨f', hstep, hsame, hbase', hlog'⟩ := Core.appendEntries_accepted h.follower hF h.indexed
      hprev hprevTerm hentries hn (by omega) hpre
    rw [hstep, Core.lastSent_push]
    obtain ⟨hrepair, hagree⟩ := @Repair.agreeing L p l f (f'.push _)
      { Core.appendResp (l.appendMessage p) with success := true, matchIndex := prev + n } h
      ⟨hsame.config, hsame.hard, hsame.role⟩ (.inl rfl) rfl (prev + n) rfl hn (by omega) (by omega)
      (show f'.base.lastIndex ≤ prev + n by rw [hbase']; omega) _
      (prefix_merge full (L.take (prev + n))) [l.appendMessage p]
    exact ⟨prev + n, hrepair, _, hlog'.congr rfl rfl, hagree⟩

end

/-! ## Convergence. -/

section

variable {L : List LogEntry} {p : NodeId}

/-- The follower's log is looked through, or known to agree up to some point. -/
def Repairing (L : List LogEntry) (p : NodeId) (s : Core × Core) : Prop :=
  Phase L p s fun full => Searching L full p s.1 s.2 ∨ ∃ k, Agreeing L full p k s.1 s.2

/-- The logs agree up to some point. -/
def Agreed (L : List LogEntry) (p : NodeId) (s : Core × Core) : Prop :=
  ∃ k, Phase L p s fun full => Agreeing L full p k s.1 s.2

/-- The logs agree up to the end of the leader's log. -/
def Repaired (L : List LogEntry) (p : NodeId) (s : Core × Core) : Prop :=
  Phase L p s fun full => Agreeing L full p L.length s.1 s.2

variable {s : Core × Core}

theorem Agreed.round (h : Agreed L p s) : Agreed L p (round p s) := by
  obtain ⟨k, hrepair, full, hF, ha⟩ := h
  obtain ⟨k', _, _, hphase⟩ := hrepair.round_agreeing hF ha
  exact ⟨k', hphase⟩

theorem Repairing.round (h : Repairing L p s) : Repairing L p (round p s) := by
  obtain ⟨hrepair, full, hF, hs | ⟨k, ha⟩⟩ := h
  · rcases hrepair.round_searching hF hs with ⟨k, hrepair', full', hF', ha⟩ | hphase
    · exact ⟨hrepair', full', hF', .inr ⟨k, ha⟩⟩
    · obtain ⟨hrepair', full', hF', hs', _⟩ := hphase
      exact ⟨hrepair', full', hF', .inl hs'⟩
  · obtain ⟨k', hrepair', full', hF', ha'⟩ := Agreed.round ⟨k, hrepair, full, hF, ha⟩
    exact ⟨hrepair', full', hF', .inr ⟨k', ha'⟩⟩

theorem Repaired.round (h : Repaired L p s) : Repaired L p (round p s) := by
  obtain ⟨hrepair, full, hF, ha⟩ := h
  obtain ⟨k, hk, _, hrepair', full', hF', ha'⟩ := hrepair.round_agreeing hF ha
  have hend : k = L.length := le_antisymm ha'.le_length hk
  rw [hend] at ha'
  exact ⟨hrepair', full', hF', ha'⟩

theorem Repairing.next_bounds (h : Repairing L p s) :
    1 ≤ s.1.next_.getD p 0 ∧ s.1.next_.getD p 0 ≤ s.1.lastIndex + 1 := by
  obtain ⟨hrepair, full, _, hs | ⟨k, ha⟩⟩ := h
  · rw [hrepair.window.lastIndex_eq]
    exact ⟨hs.next_pos, hs.next_le⟩
  · rw [hrepair.window.lastIndex_eq, ha.next_eq]
    have := ha.le_length
    omega

theorem Repaired.converged (h : Repaired L p s) :
    s.1.match_.getD p 0 = s.1.lastIndex ∧
      s.1.above s.2.base.lastIndex <+: s.2.above s.1.base.lastIndex := by
  obtain ⟨hrepair, full, hF, ha⟩ := h
  constructor
  · rw [hrepair.window.lastIndex_eq]
    exact le_antisymm hrepair.match_le ha.le_match
  · have hagrees : L <+: full := by
      have := ha.agrees
      rw [take_length] at this
      exact this
    have hmax : s.1.base.lastIndex + (s.2.base.lastIndex - s.1.base.lastIndex) =
        s.2.base.lastIndex + (s.1.base.lastIndex - s.2.base.lastIndex) := by omega
    unfold Core.above
    rw [hrepair.window.log_eq, hF.window.log_eq, drop_drop, drop_drop, hmax]
    exact hagrees.drop _

theorem Repairing.agreed (h : Repairing L p s) :
    ∃ n ≤ s.1.next_.getD p 0 + 1, Agreed L p ((Raft.round p)^[n] s) := by
  have hfalls : ∀ s, Repairing L p s → ¬ Agreed L p s → Agreed L p (Raft.round p s) ∨
      (Raft.round p s).1.next_.getD p 0 < s.1.next_.getD p 0 := by
    intro s hs hnot
    obtain ⟨hrepair, full, hF, hs | ⟨k, ha⟩⟩ := hs
    · rcases hrepair.round_searching hF hs with ⟨k, hphase⟩ | ⟨_, _, _, _, hlt⟩
      · exact .inl ⟨k, hphase⟩
      · exact .inr hlt
    · exact absurd ⟨k, hrepair, full, hF, ha⟩ hnot
  exact @Progress.eventually_of_lt _ (Repairing L p) (fun s => s.1.next_.getD p 0) (Raft.round p)
    (Agreed L p) (fun _ hs => hs.round) hfalls s h

theorem Agreed.repaired (h : Agreed L p s) :
    ∃ n ≤ L.length + 1, Repaired L p ((Raft.round p)^[n] s) := by
  have hfalls : ∀ s, Agreed L p s → ¬ Repaired L p s → Repaired L p (Raft.round p s) ∨
      L.length + 1 - (Raft.round p s).1.next_.getD p 0 < L.length + 1 - s.1.next_.getD p 0 := by
    intro s hs hnot
    obtain ⟨k, hrepair, full, hF, ha⟩ := hs
    have hlt : k < L.length := by
      rcases Nat.lt_or_eq_of_le ha.le_length with hlt | hend
      · exact hlt
      · rw [hend] at ha
        exact absurd ⟨hrepair, full, hF, ha⟩ hnot
    obtain ⟨k', _, hrises, _, _, _, ha'⟩ := hrepair.round_agreeing hF ha
    right
    rw [ha'.next_eq, ha.next_eq]
    omega
  obtain ⟨n, hn, hrepaired⟩ := @Progress.eventually_of_lt _ (Agreed L p)
    (fun s => L.length + 1 - s.1.next_.getD p 0) (Raft.round p) (Repaired L p)
    (fun _ hs => hs.round) hfalls s h
  obtain ⟨k, _, _, _, ha⟩ := h
  have hnext := ha.next_eq
  replace hn : n ≤ L.length + 1 - s.1.next_.getD p 0 + 1 := hn
  exact ⟨n, by omega, hrepaired⟩

/-- **Log repair terminates and converges.**  A leader with the full log `L` and a follower of the
same term, whose full log matches it and agrees with it up to the follower's commit index, whatever
their snapshot bases: `next_` never leaves its bounds, and after finitely many rounds `match_` is
the leader's last index for good, with the leader's log in front of the follower's. -/
theorem log_repair_converges {full : List LogEntry} {l f : Core} (h : Repair L p l f)
    (hF : FollowerLog L full f) (hs : Searching L full p l f) :
    (∀ n, 1 ≤ ((round p)^[n] (l, f)).1.next_.getD p 0 ∧
      ((round p)^[n] (l, f)).1.next_.getD p 0 ≤ ((round p)^[n] (l, f)).1.lastIndex + 1) ∧
    ∃ N ≤ l.next_.getD p 0 + l.lastIndex + 2, ∀ n, N ≤ n →
      ((round p)^[n] (l, f)).1.lastIndex = l.lastIndex ∧
      ((round p)^[n] (l, f)).1.match_.getD p 0 = l.lastIndex ∧
      ((round p)^[n] (l, f)).1.above ((round p)^[n] (l, f)).2.base.lastIndex <+:
        ((round p)^[n] (l, f)).2.above ((round p)^[n] (l, f)).1.base.lastIndex := by
  have hstart : Repairing L p (l, f) := ⟨h, full, hF, .inl hs⟩
  have hall : ∀ n, Repairing L p ((round p)^[n] (l, f)) :=
    Progress.iterate_invariant (fun _ hr => hr.round) hstart
  refine ⟨fun n => (hall n).next_bounds, ?_⟩
  obtain ⟨a, ha, hagreed⟩ := hstart.agreed
  obtain ⟨b, hb, hrepaired⟩ := hagreed.repaired
  rw [← Function.iterate_add_apply] at hrepaired
  have hlast : l.lastIndex = L.length := h.window.lastIndex_eq
  refine ⟨b + a, ?_, fun n hn => ?_⟩
  · replace ha : a ≤ l.next_.getD p 0 + 1 := ha
    omega
  · obtain ⟨c, rfl⟩ : ∃ c, n = c + (b + a) := ⟨n - (b + a), by omega⟩
    have hend : Repaired L p ((round p)^[c + (b + a)] (l, f)) := by
      rw [Function.iterate_add_apply]
      exact Progress.iterate_invariant (fun _ hr => hr.round) hrepaired c
    obtain ⟨hmatch, hpre⟩ := hend.converged
    have hsame : ((round p)^[c + (b + a)] (l, f)).1.lastIndex = l.lastIndex := by
      rw [hlast]
      exact hend.1.window.lastIndex_eq
    rw [hsame] at hmatch
    exact ⟨hsame, hmatch, hpre⟩

/-- A follower with two entries of an old term in the way. -/
def divergedLeader : Core :=
  { config := { id := 1, peers := [1, 2, 3], maxEntriesPerMsg := 1, maxBytesPerMsg := 0 }
    hard := { term := 3 }, log := [⟨1, 1, []⟩, ⟨3, 2, [7]⟩], base := {}, role := .leader
    next_ := (∅ : UnorderedMap Nat).insert 2 3 }

def divergedFollower : Core :=
  { config := { id := 2, peers := [1, 2, 3] }, hard := { term := 3 }
    log := [⟨1, 1, []⟩, ⟨2, 2, []⟩, ⟨2, 3, []⟩], base := {}, commit := 1 }

theorem log_repair_converges_diverged :
    ∃ N ≤ 7, ∀ n, N ≤ n →
      ((round 2)^[n] (divergedLeader, divergedFollower)).1.match_.getD 2 0 = 2 := by
  have hindexL : Indexed [⟨1, 1, []⟩, ⟨3, 2, [7]⟩] := by
    intro i e he
    match i with
    | 0 => cases he; rfl
    | 1 => cases he; rfl
    | i + 2 => cases he
  have hindexF : Indexed [⟨1, 1, []⟩, ⟨2, 2, []⟩, ⟨2, 3, []⟩] := by
    intro i e he
    match i with
    | 0 => cases he; rfl
    | 1 => cases he; rfl
    | 2 => cases he; rfl
    | i + 3 => cases he
  have hmatching : Core.Matching [⟨1, 1, []⟩, ⟨2, 2, []⟩, ⟨2, 3, []⟩]
      [⟨1, 1, []⟩, ⟨3, 2, [7]⟩] := by
    intro k _ hk hterm
    match k with
    | 0 => rfl
    | 1 => cases hterm
    | k + 2 =>
      rw [length_cons, length_cons, length_nil] at hk
      omega
  have hrepair : Repair [⟨1, 1, []⟩, ⟨3, 2, [7]⟩] 2 divergedLeader divergedFollower :=
    ⟨rfl, by decide, rfl, rfl, Nat.le_refl 1, ⟨Nat.zero_le _, rfl, rfl⟩, hindexL, by decide⟩
  have hF : FollowerLog [⟨1, 1, []⟩, ⟨3, 2, [7]⟩] [⟨1, 1, []⟩, ⟨2, 2, []⟩, ⟨2, 3, []⟩]
      divergedFollower := ⟨⟨Nat.zero_le _, rfl, rfl⟩, hindexF, hmatching⟩
  have hs : Searching [⟨1, 1, []⟩, ⟨3, 2, [7]⟩] [⟨1, 1, []⟩, ⟨2, 2, []⟩, ⟨2, 3, []⟩] 2
      divergedLeader divergedFollower :=
    ⟨by decide, by decide, Nat.zero_le _, by decide, [⟨3, 2, [7]⟩], rfl⟩
  obtain ⟨_, N, hN, hreached⟩ := log_repair_converges hrepair hF hs
  exact ⟨N, hN, fun n hn => (hreached n hn).2.1⟩

end

end Flotilla.Raft
