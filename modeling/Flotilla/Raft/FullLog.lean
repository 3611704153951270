/-
  Raft.FullLog — the log a core would hold had it never compacted.

  A core keeps a snapshot base and the entries above it, the storage keeps a
  possibly older base and the entries above that.  Both are windows of one full
  log, and everything the protocol decides from `TermAt`, `At` and
  `last_index` is a question about the full log.
-/
import Flotilla.Raft.Handlers

namespace Flotilla.Raft

open ReplicatedLog

/-! ## Windows. -/

/-- The entry that the core still holds at `index`, if any. -/
def Core.entry? (r : Core) (index : Nat) : Option LogEntry :=
  if r.base.lastIndex < index ∧ index ≤ r.lastIndex then some (r.entryAt index) else none

/-- Entry number `i` carries index `i + 1`. -/
def Indexed (l : List LogEntry) : Prop := ∀ i e, l[i]? = some e → e.index = i + 1

/-- `log` above `base` is a window of the full log `full`. -/
structure Window (base : Snapshot) (log full : List LogEntry) : Prop where
  le : base.lastIndex ≤ full.length
  log_eq : log = full.drop base.lastIndex
  term_eq : base.lastTerm = termOf LogEntry.term full base.lastIndex

variable {l : List LogEntry} {e : LogEntry} {k : Nat}

theorem Indexed.restrict {x : List LogEntry} (h : Indexed l) (hx : x <+: l) : Indexed x :=
  fun i e hi => h i e (getElem?_of_isPrefix hx hi)

theorem Indexed.concat (h : Indexed l) (he : e.index = l.length + 1) : Indexed (l ++ [e]) := by
  intro i f hf
  by_cases hlt : i < l.length
  · rw [getElem?_append_left hlt] at hf
    exact h i f hf
  · have hlen : i < (l ++ [e]).length := (getElem?_eq_some_iff.mp hf).1
    simp only [length_append, length_singleton] at hlen
    obtain rfl : i = l.length := by omega
    simp only [List.getElem?_concat_length, Option.some.injEq] at hf
    rw [← hf]
    exact he

theorem Indexed.mem_take (h : Indexed l) (he : e ∈ l.take k) : e.index < k + 1 := by
  obtain ⟨i, hi⟩ := List.getElem?_of_mem he
  have hlt : i < (l.take k).length := (getElem?_eq_some_iff.mp hi).1
  have hidx := h i e (getElem?_of_isPrefix (List.take_prefix k l) hi)
  rw [length_take] at hlt
  omega

theorem Indexed.mem_drop (h : Indexed l) (he : e ∈ l.drop k) : k < e.index := by
  obtain ⟨i, hi⟩ := List.getElem?_of_mem he
  rw [getElem?_drop] at hi
  have hidx := h _ e hi
  omega

theorem Indexed.filter_drop (h : Indexed l) {a : Nat} (hak : a ≤ k) (hk : k ≤ l.length) :
    (l.drop a).filter (fun e => decide (e.index < k + 1)) = (l.take k).drop a := by
  have hsplit : l.drop a = (l.take k).drop a ++ l.drop k := by
    conv_lhs => rw [← take_append_drop k l]
    rw [drop_append_of_le_length]
    rw [length_take]
    omega
  rw [hsplit, filter_append]
  have hleft : ((l.take k).drop a).filter (fun e => decide (e.index < k + 1)) =
      (l.take k).drop a := by
    apply filter_eq_self.mpr
    intro e he
    exact decide_eq_true (h.mem_take (mem_of_mem_drop he))
  have hright : (l.drop k).filter (fun e => decide (e.index < k + 1)) = [] := by
    apply List.filter_eq_nil_iff.mpr
    intro e he hlt
    have hge := h.mem_drop he
    have hlt' := of_decide_eq_true hlt
    omega
  rw [hleft, hright, append_nil]

theorem Indexed.pairwise_drop (h : Indexed l) (a : Nat) :
    (l.drop a).Pairwise (fun e f => e.index < f.index) := by
  rw [List.pairwise_iff_getElem]
  intro i j hi hj hij
  have hei : l[a + i]? = some (l.drop a)[i] := by
    rw [← getElem?_drop]; exact getElem?_eq_getElem hi
  have hej : l[a + j]? = some (l.drop a)[j] := by
    rw [← getElem?_drop]; exact getElem?_eq_getElem hj
  have h1 := h _ _ hei
  have h2 := h _ _ hej
  omega

theorem rdropWhile_eq_filter (h : l.Pairwise (fun e f => e.index < f.index)) (i : Nat) :
    l.rdropWhile (fun e => decide (i ≤ e.index)) =
      l.filter (fun e => decide (e.index < i)) := by
  induction l using List.reverseRecOn with
  | nil => rfl
  | append_singleton l e ih =>
    have hl := (pairwise_append.mp h).1
    have hlast : ∀ f ∈ l, f.index < e.index := fun f hf =>
      (pairwise_append.mp h).2.2 f hf e (mem_singleton.mpr rfl)
    by_cases hge : i ≤ e.index
    · rw [List.rdropWhile_concat, if_pos (decide_eq_true hge), ih hl, filter_append]
      have hnil : [e].filter (fun e => decide (e.index < i)) = [] := by simp [hge]
      rw [hnil, append_nil]
    · rw [List.rdropWhile_concat, if_neg (by simpa using hge)]
      symm
      apply filter_eq_self.mpr
      intro f hf
      apply decide_eq_true
      rcases mem_append.mp hf with hf | hf
      · have := hlast f hf
        omega
      · rw [mem_singleton.mp hf]
        omega

namespace Window

variable {r : Core} {full : List LogEntry}

theorem lastIndex_eq (h : Window r.base r.log full) : r.lastIndex = full.length := by
  unfold Core.lastIndex
  rw [h.log_eq, length_drop]
  have := h.le
  omega

variable {i : Nat}

theorem entryAt_eq (h : Window r.base r.log full) (hb : r.base.lastIndex ≤ i) (hi : i < full.length) :
    full[i]? = some (r.entryAt (i + 1)) := by
  unfold Core.entryAt
  have hslot : i + 1 - r.base.lastIndex - 1 = i - r.base.lastIndex := by omega
  have hback : r.base.lastIndex + (i - r.base.lastIndex) = i := by omega
  rw [hslot, h.log_eq, getElem?_drop, hback, getElem?_eq_getElem hi]
  rfl

theorem entry?_eq (h : Window r.base r.log full) (hb : r.base.lastIndex < i) :
    r.entry? i = full[i - 1]? := by
  unfold Core.entry?
  rw [h.lastIndex_eq]
  obtain ⟨k, rfl⟩ : ∃ k, i = k + 1 := ⟨i - 1, by omega⟩
  by_cases hi : k < full.length
  · rw [if_pos ⟨hb, hi⟩]
    exact (h.entryAt_eq (by omega) hi).symm
  · rw [if_neg (fun hc => hi hc.2)]
    exact (List.getElem?_eq_none (by omega)).symm

theorem termAt_eq (h : Window r.base r.log full) (hb : r.base.lastIndex ≤ i) (hi : i ≤ full.length) :
    r.termAt i = termOf LogEntry.term full i := by
  unfold Core.termAt
  by_cases heq : i = r.base.lastIndex
  · rw [if_pos heq, heq]
    exact h.term_eq
  · rw [if_neg heq, h.lastIndex_eq, if_pos ⟨by omega, hi⟩]
    obtain ⟨k, rfl⟩ : ∃ k, i = k + 1 := ⟨i - 1, by omega⟩
    have hentry := h.entryAt_eq (by omega : r.base.lastIndex ≤ k) (by omega)
    rw [termOf_succ_of_getElem? LogEntry.term hentry]

theorem lastTerm_eq (h : Window r.base r.log full) :
    r.lastTerm = termOf LogEntry.term full full.length := by
  unfold Core.lastTerm
  rw [h.lastIndex_eq]
  exact h.termAt_eq h.le le_rfl

theorem cut_concat {base : Snapshot} {log full : List LogEntry} (h : Window base log full)
    {k : Nat} {e : LogEntry} (hb : base.lastIndex ≤ k) (hk : k ≤ full.length) :
    Window base ((full.take k).drop base.lastIndex ++ [e]) (full.take k ++ [e]) where
  le := by
    rw [length_append, length_take]
    omega
  log_eq := by
    rw [drop_append_of_le_length]
    rw [length_take]
    omega
  term_eq := by
    have hpre : full.take base.lastIndex <+: full := List.take_prefix _ _
    have hlen : base.lastIndex ≤ (full.take base.lastIndex).length := by
      rw [length_take]
      omega
    have hpre' : full.take base.lastIndex <+: full.take k ++ [e] :=
      (take_prefix_take_left hb).trans (prefix_append _ _)
    rw [h.term_eq, prefix_termOf LogEntry.term hpre hlen, prefix_termOf LogEntry.term hpre' hlen]

end Window

/-! ## The storage under a pending `Ready`. -/

namespace Storage

/-- The snapshot that `persist` leaves. -/
def pendingSnap (d : Storage) (snap : Option Snapshot) : Snapshot := snap.getD d.snap

/-- The entries that `persist` leaves of a sorted log. -/
def pendingEntries (d : Storage) (snap : Option Snapshot) (truncateFrom : Nat)
    (entries : List LogEntry) : List LogEntry :=
  let es := if snap.isSome then [] else d.entries
  (if truncateFrom ≠ 0 then es.filter (fun e => decide (e.index < truncateFrom)) else es) ++ entries

theorem persist_snap (d : Storage) (ready : Ready) :
    (d.persist ready).snap = d.pendingSnap ready.snapshotToApply := by
  unfold persist pendingSnap
  cases hsnap : ready.snapshotToApply with
  | none | some snap => dsimp only; split <;> split <;> rfl

theorem persist_entries {d : Storage} (h : d.entries.Pairwise (fun e f => e.index < f.index))
    (ready : Ready) : (d.persist ready).entries =
      d.pendingEntries ready.snapshotToApply ready.truncateFrom ready.entriesToAppend := by
  unfold persist pendingEntries
  cases hsnap : ready.snapshotToApply with
  | none =>
    by_cases htf : ready.truncateFrom ≠ 0
    · simp only [if_pos htf, truncateFrom, append, saveHardState, rdropWhile_eq_filter h]
      split <;> rfl
    · simp only [if_neg htf, append, saveHardState]
      split <;> rfl
  | some snap =>
    by_cases htf : ready.truncateFrom ≠ 0
    · simp only [if_pos htf, truncateFrom, append, saveHardState, saveSnapshot]
      split <;> rfl
    · simp only [if_neg htf, append, saveHardState, saveSnapshot]
      split <;> rfl

theorem pendingEntries_append (d : Storage) (snap : Option Snapshot) (tf : Nat)
    (es es' : List LogEntry) :
    d.pendingEntries snap tf (es ++ es') = d.pendingEntries snap tf es ++ es' := by
  unfold pendingEntries
  rw [append_assoc]

theorem pendingEntries_cut (d : Storage) (snap : Option Snapshot) (tf i : Nat)
    (es : List LogEntry) (e : LogEntry) (hi : i ≠ 0) :
    d.pendingEntries snap (if tf = 0 ∨ i < tf then i else tf)
        (es.filter (fun p => decide (p.index < i)) ++ [e]) =
      (d.pendingEntries snap tf es).filter (fun p => decide (p.index < i)) ++ [e] := by
  unfold pendingEntries
  dsimp only
  generalize (if snap.isSome then [] else d.entries) = ds
  rw [filter_append, append_assoc]
  congr 1
  -- both cuts of the stored entries keep what is below the smaller index
  by_cases htf : tf = 0
  · simp [htf, hi]
  · by_cases hlt : i < tf
    · simp only [htf, hlt, or_true, if_true, ne_eq, hi, not_false_eq_true, filter_filter]
      apply filter_congr
      intro f _
      by_cases hf : f.index < i
      · simp [hf, lt_trans hf hlt]
      · simp [hf]
    · simp only [htf, hlt, or_self, if_false, ne_eq, not_false_eq_true, if_true, filter_filter]
      apply filter_congr
      intro f _
      by_cases hf : f.index < tf
      · simp [hf, lt_of_lt_of_le hf (not_lt.mp hlt)]
      · simp [hf]

end Storage

/-- The storage of `r` after its pending `Ready` is a window of the same full log. -/
structure OnDisk (d : Storage) (r : Core) (full : List LogEntry) : Prop where
  window : Window (d.pendingSnap r.ready.snapshotToApply)
    (d.pendingEntries r.ready.snapshotToApply r.ready.truncateFrom r.ready.entriesToAppend) full
  le : (d.pendingSnap r.ready.snapshotToApply).lastIndex ≤ r.base.lastIndex

/-! ## The entry loop. -/

namespace Core

theorem appendEntry_eq (r : Core) (e : LogEntry) : ∃ log tf es, r.appendEntry e =
    { r with log := log, ready := { r.ready with truncateFrom := tf, entriesToAppend := es } } := by
  unfold appendEntry
  split
  · split
    · exact ⟨_, _, _, rfl⟩
    · exact ⟨_, _, _, rfl⟩
  · exact ⟨_, _, _, rfl⟩

theorem foldl_appendEntry_eq (r : Core) (es : List LogEntry) : ∃ log tf es',
    es.foldl appendEntry r =
      { r with log := log, ready := { r.ready with truncateFrom := tf, entriesToAppend := es' } } := by
  induction es generalizing r with
  | nil => exact ⟨_, _, _, rfl⟩
  | cons e es ih =>
    rw [foldl_cons]
    obtain ⟨log, tf, es', h⟩ := r.appendEntry_eq e
    obtain ⟨log', tf', es'', h'⟩ := ih (r.appendEntry e)
    rw [h', h]
    exact ⟨_, _, _, rfl⟩

variable {r : Core} {d : Storage} {full L : List LogEntry}

theorem appendEntry_skip (h : Window r.base r.log full) {e : LogEntry} {k : Nat}
    (he : e.index = k + 1) (hb : r.base.lastIndex ≤ k) (hk : k < full.length)
    (hterm : termOf LogEntry.term full (k + 1) = e.term) : r.appendEntry e = r := by
  unfold appendEntry
  rw [if_pos (by rw [he, h.lastIndex_eq]; omega)]
  rw [if_pos (by rw [he, h.termAt_eq (by omega) (by omega)]; exact hterm)]

theorem appendEntry_put (h : Window r.base r.log full) (hd : OnDisk d r full) (hidx : Indexed full)
    {e : LogEntry} {k : Nat} (he : e.index = k + 1) (hb : r.base.lastIndex ≤ k)
    (hk : k ≤ full.length)
    (hnew : k < full.length → termOf LogEntry.term full (k + 1) ≠ e.term) :
    Window (r.appendEntry e).base (r.appendEntry e).log (full.take k ++ [e]) ∧
      OnDisk d (r.appendEntry e) (full.take k ++ [e]) ∧
      ((r.appendEntry e).ready.truncateFrom = r.ready.truncateFrom ∨
        (k < full.length ∧ (r.appendEntry e).ready.truncateFrom = k + 1)) := by
  have hcore := h.cut_concat (e := e) hb hk
  have hdisk := hd.window.cut_concat (e := e) (hd.le.trans hb) hk
  unfold appendEntry
  by_cases hlt : k < full.length
  · -- conflict: truncate and append
    rw [if_pos (by rw [he, h.lastIndex_eq]; omega)]
    rw [if_neg (by rw [he, h.termAt_eq (by omega) (by omega)]; exact hnew hlt)]
    refine ⟨?_, ⟨?_, hd.le⟩, ?_⟩
    · have hslot : e.index - r.base.lastIndex - 1 = k - r.base.lastIndex := by omega
      have hlog : r.log.take (e.index - r.base.lastIndex - 1) =
          (full.take k).drop r.base.lastIndex := by
        rw [hslot, h.log_eq, drop_take]
      show Window r.base (r.log.take (e.index - r.base.lastIndex - 1) ++ [e]) _
      rw [hlog]
      exact hcore
    · show Window _ (d.pendingEntries _ (if _ then _ else _) _) _
      rw [Storage.pendingEntries_cut d _ _ _ _ _ (by omega), hd.window.log_eq, he,
        hidx.filter_drop (hd.le.trans hb) hk]
      exact hdisk
    · show (if _ then _ else _) = _ ∨ _
      split
      · exact .inr ⟨hlt, he⟩
      · exact .inl rfl
  · -- one past the end: append
    have hkeq : k = full.length := by omega
    rw [if_neg (by rw [he, h.lastIndex_eq]; omega)]
    have hall : full.take k = full := by rw [hkeq, take_length]
    rw [hall] at hcore hdisk ⊢
    refine ⟨?_, ⟨?_, hd.le⟩, .inl rfl⟩
    · show Window r.base (r.log ++ [e]) _
      rw [h.log_eq]
      exact hcore
    · show Window _ (d.pendingEntries _ _ (r.ready.entriesToAppend ++ [e])) _
      rw [Storage.pendingEntries_append, hd.window.log_eq]
      exact hdisk

/-- Where two logs have the same term they agree up to there. -/
def Matching (full L : List LogEntry) : Prop :=
  ∀ k, k < full.length → k < L.length →
    termOf LogEntry.term full (k + 1) = termOf LogEntry.term L (k + 1) →
    full.take (k + 1) = L.take (k + 1)

/-- The loop over the entries of a message: the log comes to agree with the leader's. -/
theorem foldl_appendEntry (h : Window r.base r.log full) (hd : OnDisk d r full)
    (hidx : Indexed full) (hL : Indexed L) (hmatch : Matching full L) {prev : Nat}
    (hb : r.base.lastIndex ≤ prev) (hpre : L.take prev <+: full) (n : Nat)
    (hn : prev + n ≤ L.length) {r' : Core}
    (hr' : r' = ((L.drop prev).take n).foldl appendEntry r) :
    Window r'.base r'.log (merge full (L.take (prev + n))) ∧
      OnDisk d r' (merge full (L.take (prev + n))) ∧
      (∀ c, full.take c <+: L → c ≤ full.length →
        (r.ready.truncateFrom = 0 ∨ c < r.ready.truncateFrom) →
        r'.ready.truncateFrom = 0 ∨ c < r'.ready.truncateFrom) := by
  induction n generalizing r' with
  | zero =>
    rw [take_zero, foldl_nil] at hr'
    subst hr'
    rw [Nat.add_zero, merge_eq_left hpre]
    exact ⟨h, hd, fun c _ _ hc => hc⟩
  | succ n ih =>
    obtain ⟨hw, hdisk, htf⟩ := ih (by omega) rfl
    -- the entry at position `k` of the leader's log comes next
    obtain ⟨k, hk⟩ : ∃ k, k = prev + n := ⟨_, rfl⟩
    obtain ⟨e, he⟩ : ∃ e, L[k]? = some e := ⟨_, getElem?_eq_getElem (by omega)⟩
    have hloop : (L.drop prev).take (n + 1) = (L.drop prev).take n ++ [e] := by
      rw [take_add_one, getElem?_drop, ← hk, he]
      rfl
    have hLk : L.take (k + 1) = L.take k ++ [e] := by
      rw [take_add_one, he]
      rfl
    have hek : termOf LogEntry.term L (k + 1) = e.term := termOf_succ_of_getElem? _ he
    rw [hloop, foldl_append, foldl_cons, foldl_nil] at hr'
    have hbase : (((L.drop prev).take n).foldl appendEntry r).base = r.base := by
      obtain ⟨log, tf, es, heq⟩ := foldl_appendEntry_eq r ((L.drop prev).take n)
      rw [heq]
    generalize ((L.drop prev).take n).foldl appendEntry r = rn at hr' hw hdisk htf hbase
    rw [← hk] at hw hdisk
    have hsucc : prev + (n + 1) = k + 1 := by omega
    rw [hsucc]
    have hpreF : L.take k <+: merge full (L.take k) := prefix_merge _ _
    have hlenF : k ≤ (merge full (L.take k)).length := by
      have := hpreF.length_le
      rw [length_take] at this
      omega
    have hidxF : Indexed (merge full (L.take k)) := by
      by_cases hc : L.take k <+: full
      · rw [merge_eq_left hc]; exact hidx
      · rw [merge_eq_right hc]; exact hL.restrict (List.take_prefix _ _)
    by_cases hhave : k < (merge full (L.take k)).length ∧
        termOf LogEntry.term (merge full (L.take k)) (k + 1) = e.term
    · -- already there: then nothing was cut so far, and the logs agree one further
      have hskip := appendEntry_skip hw (hL k e he) (by rw [hbase]; omega) hhave.1 hhave.2
      rw [hskip] at hr'
      subst hr'
      have hc : L.take k <+: full := by
        by_contra hc
        have hlen := hhave.1
        rw [merge_eq_right hc, length_take] at hlen
        omega
      rw [merge_eq_left hc] at hw hdisk hhave
      have hnext : L.take (k + 1) <+: full := by
        rw [← hmatch k hhave.1 (by omega) (by rw [hek]; exact hhave.2)]
        exact List.take_prefix _ _
      rw [merge_eq_left hnext]
      exact ⟨hw, hdisk, htf⟩
    · -- new or conflicting: the log is now the leader's log up to `k + 1`
      have hnew : k < (merge full (L.take k)).length →
          termOf LogEntry.term (merge full (L.take k)) (k + 1) ≠ e.term :=
        fun hlt heq => hhave ⟨hlt, heq⟩
      obtain ⟨hw', hdisk', htf'⟩ :=
        appendEntry_put hw hdisk hidxF (hL k e he) (by rw [hbase]; omega) hlenF hnew
      rw [← hr'] at hw' hdisk' htf'
      have hnot : ¬ L.take (k + 1) <+: full := by
        intro hc
        have hck : L.take k <+: full := (take_prefix_take_left (Nat.le_succ k)).trans hc
        have hlen : k + 1 ≤ (L.take (k + 1)).length := by
          rw [length_take]; omega
        rw [merge_eq_left hck] at hhave
        apply hhave
        refine ⟨lt_of_lt_of_le hlen hc.length_le, ?_⟩
        rw [prefix_termOf LogEntry.term hc hlen, ← hek,
          prefix_termOf LogEntry.term (List.take_prefix (k + 1) L) hlen]
      have hcut : (merge full (L.take k)).take k ++ [e] = L.take (k + 1) := by
        have hlenk : k ≤ (L.take k).length := by rw [length_take]; omega
        rw [hLk, prefix_take_eq hpreF hlenk, take_take, Nat.min_self]
      rw [hcut] at hw' hdisk'
      rw [merge_eq_right hnot]
      refine ⟨hw', hdisk', fun c hcL hclen hc => ?_⟩
      rcases htf' with hsame | ⟨_, hcutat⟩
      · rw [hsame]; exact htf c hcL hclen hc
      · -- the cut is above everything the two logs share
        refine .inr ?_
        rw [hcutat]
        by_contra hle
        apply hnot
        have hck : k + 1 ≤ (full.take c).length := by
          rw [length_take]; omega
        have heq : L.take (k + 1) = (full.take c).take (k + 1) := prefix_take_eq hcL hck
        rw [heq]
        exact (List.take_prefix _ _).trans (List.take_prefix _ _)

end Core

end Flotilla.Raft
