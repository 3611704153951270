/-
  Raft.Followers — followers keep the log invariant.

  An accepted `AppendEntries` or `InstallSnapshot` is the move `accept` with a
  piece of the leader's log.  In a guarded run the follower's commit index
  stays inside what the leader committed, which is what the two conditions on
  delivered messages, `CommitCovered` and `SnapshotFresh`, are for.
-/
import Flotilla.Raft.Replication

namespace Flotilla.Raft

open Ghost
open ReplicatedLog

section

variable {ρ : Regime} {M : Membership} {ldr : Nat → NodeId} {γ γ' : Ghost} {p q : NodeId}
  {d : Storage} {r r' : Core} {m : Message}

/-! ## Accepting a piece of the leader's log. -/

/-- The ghost move of a follower that takes over `x`. -/
noncomputable def Ghost.accept (γ : Ghost) (p : NodeId) (x : List LogEntry) : Ghost :=
  { γ with hist := γ.hist.accept p x }

theorem Ghost.moves_accept (γ : Ghost) (p : NodeId) (x : List LogEntry) :
    γ.Moves ldr p (γ.accept p x) where
  ext := History.extends_accept _ _ _
  log_other _ hq := update_of_ne hq ..
  term_other _ _ := rfl
  voted_other _ _ _ hv := hv
  llog_other _ _ := .inl rfl
  clog_keep _ _ _ := rfl

theorem Ghost.global_accept (hG : γ.Global M ldr) (hled : γ.hist.led (γ.hist.term p))
    {x : List LogEntry} (hx : x <+: γ.hist.llog (γ.hist.term p)) :
    (γ.accept p x).Global M ldr where
  sound := hG.sound.accept hled hx
  led_ldr := hG.led_ldr
  indexed := hG.indexed

theorem Ghost.accept_log (γ : Ghost) (p : NodeId) (x : List LogEntry) :
    (γ.accept p x).hist.log p = merge (γ.hist.log p) x := update_self ..

theorem Ghost.accept_ack (γ : Ghost) (p : NodeId) (x : List LogEntry) :
    x.length ≤ (γ.accept p x).hist.ack (γ.hist.term p) p := by
  have heq : (γ.accept p x).hist.ack (γ.hist.term p) p =
      max (γ.hist.ack (γ.hist.term p) p) x.length := if_pos ⟨rfl, rfl⟩
  rw [heq]
  exact le_max_right _ _

theorem LogNode.matching (hG : γ.Global M ldr) (p : NodeId) {t : Nat} (hled : γ.hist.led t) :
    Core.Matching (γ.hist.log p) (γ.hist.llog t) := by
  intro k hk hkL hterm
  have he : (γ.hist.log p)[k]? = some (γ.hist.log p)[k] := getElem?_eq_getElem hk
  have hf : (γ.hist.llog t)[k]? = some (γ.hist.llog t)[k] := getElem?_eq_getElem hkL
  rw [termOf_succ_of_getElem? _ he, termOf_succ_of_getElem? _ hf] at hterm
  exact (hG.sound.owned_log p).agree (hG.sound.owned_llog t hled) he hf hterm

section

variable (hG : γ.Global M ldr) (h : CommitOk M γ p r) (hled : γ.hist.led r.hard.term)

include hG h hled

theorem CommitOk.prefix_leader : (γ.hist.log p).take r.commit <+: γ.hist.llog r.hard.term :=
  h.committed.prefix_llog hG.sound le_rfl hled

theorem CommitOk.prefix_accepted {x : List LogEntry} (hx : x <+: γ.hist.llog r.hard.term) :
    (γ.hist.log p).take r.commit <+: merge (γ.hist.log p) x :=
  prefix_merge_of_common (List.take_prefix _ _) (h.prefix_leader hG hled) hx

theorem CommitOk.accepted {x : List LogEntry} (hx : x <+: γ.hist.llog r.hard.term) :
    CommitOk M (γ.accept p x) p r := by
  have hpre := h.prefix_accepted hG hled hx
  have hlen : r.commit ≤ ((γ.hist.log p).take r.commit).length := by
    rw [length_take]
    have := h.le_length
    omega
  refine ⟨h.base_le, h.emitted_eq, ?_, ?_⟩
  · rw [accept_log]
    exact hlen.trans hpre.length_le
  · rw [accept_log, prefix_take_eq hpre hlen, take_take, Nat.min_self]
    exact h.committed.mono hG.sound (History.extends_accept γ.hist p x) le_rfl

end

theorem LogNode.acknowledge (hG : γ.Global M ldr) (h : LogNode ρ M ldr γ p d r)
    (hrole : r.role = .follower) {x : List LogEntry} (hhave : x <+: γ.hist.log p) :
    LogNode ρ M ldr (γ.accept p x) p d r := by
  have hlog : (γ.accept p x).hist.log p = γ.hist.log p := by rw [accept_log, merge_eq_left hhave]
  refine h.later hG (moves_accept γ p x) hlog rfl h.spent ?_
  exact fun hl => nomatch hrole.symm.trans hl

theorem LogNode.reply (hG : γ.Global M ldr) {x : List LogEntry} {c₀ : Nat}
    (h : LogNode ρ M ldr (γ.accept p x) p d r) (hrole : r.role = .follower)
    (hled : γ.hist.led (γ.hist.term p)) (hx : x <+: γ.hist.llog (γ.hist.term p))
    (hto : p ≠ m.to_) (hkind : m.kind = .appendEntriesResp ∨ m.kind = .installSnapshotResp)
    (hgr : m.granted = false) (hle : m.matchIndex ≤ x.length)
    (hkeep : ρ = .guarded → c₀ ≤ r.commit ∧
      (r.ready.truncateFrom = 0 ∨ c₀ < r.ready.truncateFrom)) :
    LogOk ρ M ldr γ p d c₀ (r.send m) := by
  refine ⟨γ.accept p x, moves_accept γ p x, global_accept hG hled hx, ?_, ?_, hkeep⟩
  · refine h.answer hto (.inr hkind) (fun hg => nomatch hgr.symm.trans hg) (fun _ => ?_)
    rw [← h.term]
    exact hle.trans (accept_ack γ p x)
  · exact fun hl => nomatch hrole.symm.trans hl

/-! ## The conditions on delivered messages. -/

/-- The follower's commit index, cut to its last index, lies inside the part that
the message verified, or the message changes nothing. -/
def CommitCovered (r : Core) (m : Message) : Prop :=
  m.commit ≤ r.commit ∨
  m.commit ≤ m.prevIndex + m.entries.length ∨
  r.lastIndex ≤ m.prevIndex + m.entries.length ∨
  (∃ e ∈ m.entries, r.base.lastIndex < e.index ∧ e.index ≤ r.lastIndex ∧
    r.termAt e.index ≠ e.term) ∨
  (m.prevIndex < r.base.lastIndex ∧ m.prevIndex + m.entries.length ≤ r.base.lastIndex) ∨
  (r.base.lastIndex ≤ m.prevIndex ∧
    (r.lastIndex < m.prevIndex ∨ r.termAt m.prevIndex ≠ m.prevTerm))

/-- A snapshot is stale, reaches the end of the log, or contradicts the log. -/
def SnapshotFresh (r : Core) (m : Message) : Prop :=
  m.snapIndex ≤ r.commit ∨ r.lastIndex ≤ m.snapIndex ∨ r.termAt m.snapIndex ≠ m.snapTerm

instance (r : Core) (m : Message) : Decidable (CommitCovered r m) :=
  inferInstanceAs (Decidable (_ ∨ _))

instance (r : Core) (m : Message) : Decidable (SnapshotFresh r m) :=
  inferInstanceAs (Decidable (_ ∨ _))

theorem LogNode.acceptEntries (hG : γ.Global M ldr) (h : LogNode ρ M ldr γ p d r)
    (hrole : r.role = .follower) (hled : γ.hist.led r.hard.term) (resp : Message)
    (prevIndex prevTerm : Nat) (entries : List LogEntry)
    (hkind : resp.kind = .appendEntriesResp) (hto : p ≠ resp.to_) (hgr : resp.granted = false)
    (hb : r.base.lastIndex ≤ prevIndex)
    (hent : entries <+: (γ.hist.llog r.hard.term).drop prevIndex)
    (hprev : prevIndex ≤ (γ.hist.llog r.hard.term).length)
    (hagree : prevIndex ≤ r.lastIndex → r.termAt prevIndex = prevTerm →
      (γ.hist.llog r.hard.term).take prevIndex <+: γ.hist.log p)
    (hcommit : ρ = .guarded → CommittedBy LogEntry.term M.members γ.hist r.hard.term
      ((γ.hist.llog r.hard.term).take m.commit))
    (hcov : ρ = .guarded → r.commit < m.commit → prevIndex ≤ r.lastIndex →
      r.termAt prevIndex = prevTerm →
      min m.commit (merge (γ.hist.log p)
        ((γ.hist.llog r.hard.term).take (prevIndex + entries.length))).length
        ≤ prevIndex + entries.length)
    (htf : r.ready.truncateFrom = 0) :
    LogOk ρ M ldr γ p d r.commit (r.acceptEntries m resp prevIndex prevTerm entries) := by
  have hrefuse : ∀ hint, LogOk ρ M ldr γ p d r.commit
      (r.send { resp with success := false, hintIndex := hint }) := by
    intro hint
    have hans : LogNode ρ M ldr γ p d (r.send { resp with success := false, hintIndex := hint }) :=
      h.answer hto (.inr (.inl hkind)) (fun hg => nomatch hgr.symm.trans hg) nofun
    exact hans.ok hG rfl htf
  unfold Core.acceptEntries
  split
  · split
    · exact hrefuse _
    · exact hrefuse _
  · rename_i hcheck
    rw [not_or] at hcheck
    have hin : prevIndex ≤ r.lastIndex := not_lt.mp hcheck.1
    have hterm : r.termAt prevIndex = prevTerm := not_not.mp hcheck.2
    obtain ⟨L, hL⟩ : ∃ L, L = γ.hist.llog r.hard.term := ⟨_, rfl⟩
    obtain ⟨x, hx⟩ : ∃ x, x = L.take (prevIndex + entries.length) := ⟨_, rfl⟩
    rw [← hL] at hent hprev hagree hcommit hcov
    rw [← hx] at hcov
    have hlen : prevIndex + entries.length ≤ L.length := by
      have := hent.length_le
      rw [length_drop] at this
      omega
    have hxlen : x.length = prevIndex + entries.length := by
      rw [hx, length_take]
      omega
    have hxL : x <+: γ.hist.llog r.hard.term := by rw [hx, hL]; exact List.take_prefix _ _
    have hloop : entries = (L.drop prevIndex).take entries.length :=
      (List.prefix_iff_eq_take.mp hent)
    -- the loop merges `x` into the full log
    obtain ⟨c, hc⟩ : ∃ c, c = entries.foldl Core.appendEntry r := ⟨_, rfl⟩
    obtain ⟨hw, hdisk, hcut⟩ := Core.foldl_appendEntry h.window h.disk h.indexed
      (hL ▸ hG.indexed _ hled) (hL ▸ LogNode.matching hG p hled) hb (hagree hin hterm)
      entries.length hlen (hc.trans (by rw [← hloop]))
    rw [← hx] at hw hdisk
    have hmoves : γ.Moves ldr p (γ.accept p x) := moves_accept γ p x
    have hled' : γ.hist.led (γ.hist.term p) := by rw [h.term]; exact hled
    have hxL' : x <+: γ.hist.llog (γ.hist.term p) := by rw [h.term]; exact hxL
    have hlog : (γ.accept p x).hist.log p = merge (γ.hist.log p) x := accept_log γ p x
    obtain ⟨log, tf, es, hceq⟩ := Core.foldl_appendEntry_eq r entries
    rw [← hc] at hceq
    have hcrole : c.role = .follower := by rw [hceq]; exact hrole
    have hccommit : c.commit = r.commit := by rw [hceq]
    have hchard : c.hard = r.hard := by rw [hceq]
    have hck : ρ = .guarded → CommitOk M (γ.accept p x) p c := by
      intro hρ
      have hok := (h.commit hρ).accepted hG hled hxL
      rw [hceq]
      exact { hok with }
    have hnode : LogNode ρ M ldr (γ.accept p x) p d c := by
      refine h.rewrite hG hmoves (by rw [hceq]) hchard rfl id ?_ ?_ ?_ ?_ ?_ hck ?_
        (by rw [hceq]) ?_
      · rw [hlog]
        by_cases hpre : x <+: γ.hist.log p
        · rw [merge_eq_left hpre]; exact h.indexed
        · rw [merge_eq_right hpre]; exact (hG.indexed _ hled).restrict hxL
      · rw [hlog]; exact hw
      · rw [hlog]; exact hdisk
      · exact fun hcand => nomatch hcrole.symm.trans hcand
      · exact fun hl => nomatch hcrole.symm.trans hl
      · rw [hceq]; exact h.plain
      · intro hρ e he
        rw [hceq] at he
        exact (h.emitted hρ e he).mono hG hmoves.ext
    have htf' : ρ = .guarded → c.ready.truncateFrom = 0 ∨ r.commit < c.ready.truncateFrom := by
      intro hρ
      have hok := h.commit hρ
      exact hcut r.commit (hL ▸ hok.prefix_leader hG hled) hok.le_length (.inl htf)
    dsimp only
    rw [← hc]
    split
    · -- the commit rule
      rename_i hlt
      rw [hccommit] at hlt
      have hlast : c.lastIndex = (merge (γ.hist.log p) x).length := hw.lastIndex_eq
      have hadv : ρ = .guarded → c.commit ≤ min m.commit c.lastIndex ∧
          min m.commit c.lastIndex ≤ ((γ.accept p x).hist.log p).length ∧
          CommittedBy LogEntry.term M.members (γ.accept p x).hist c.hard.term
            (((γ.accept p x).hist.log p).take (min m.commit c.lastIndex)) := by
        intro hρ
        have hle := (hck hρ).le_length
        have hin' := hcov hρ hlt hin hterm
        rw [hlog] at hle ⊢
        rw [hccommit] at hle
        rw [hlast, hccommit, hchard]
        refine ⟨by omega, by omega, ?_⟩
        generalize hn : min m.commit (merge (γ.hist.log p) x).length = n at hin'
        have hpre : x.take n <+: L.take m.commit := by
          rw [hx, take_take]
          exact take_prefix_take_left (by omega)
        rw [prefix_take_eq (prefix_merge (γ.hist.log p) x) (by omega)]
        exact ((hcommit hρ).restrict hpre).mono hG.sound hmoves.ext le_rfl
      refine (hnode.emitCommitted hadv).reply hG hcrole hled' hxL' hto (.inl hkind) hgr hxlen.ge
        fun hρ => ⟨?_, htf' hρ⟩
      show r.commit ≤ min m.commit c.lastIndex
      rw [← hccommit]
      exact (hadv hρ).1
    · exact hnode.reply hG hcrole hled' hxL' hto (.inl hkind) hgr hxlen.ge
        fun hρ => ⟨hccommit.ge, htf' hρ⟩

/-! ## The two messages of a leader. -/

theorem Ghost.raise_self (h : γ.hist.term p = r.hard.term) : γ.raise p r.hard.term = γ := by
  unfold raise History.raiseTerm
  rw [← h, update_eq_self]

/-- What is left of a node that hears from the leader of its term. -/
structure Heard (r c : Core) : Prop where
  role : c.role = .follower
  hard : c.hard = r.hard
  base : c.base = r.base
  commit : c.commit = r.commit
  truncateFrom : c.ready.truncateFrom = r.ready.truncateFrom

theorem LogNode.heard (hG : γ.Global M ldr) (h : LogNode ρ M ldr γ p d r)
    (hrole : r.role ≠ .leader) (m : Message) :
    LogNode ρ M ldr γ p d (r.heard m) ∧ Heard r (r.heard m) := by
  unfold Core.heard
  by_cases hcand : r.role = .candidate
  · rw [if_pos hcand]
    have hfollow := h.becomeFollower hG le_rfl m.from_
    rw [raise_self h.term] at hfollow
    refine ⟨hfollow.same {}, ?_⟩
    unfold Core.becomeFollower
    rw [if_neg (lt_irrefl _)]
    exact ⟨rfl, rfl, rfl, rfl, rfl⟩
  · rw [if_neg hcand]
    refine ⟨h.same {}, ?_, rfl, rfl, rfl, rfl⟩
    show r.role = .follower
    cases hr : r.role with
    | follower => rfl
    | candidate => exact absurd hr hcand
    | leader => exact absurd hr hrole

theorem LogNode.not_leader (h : LogNode ρ M ldr γ p d r) (hterm : m.term = r.hard.term)
    (hfrom : ldr m.term = m.from_) (hne : m.from_ ≠ m.to_) (hto : m.to_ = p) :
    r.role ≠ .leader := by
  intro hl
  apply hne
  rw [hto, ← hfrom, hterm]
  exact (h.lead hl).is_ldr

theorem min_commit_le {full x : List LogEntry} {commit k : Nat} (hx : x.length = k)
    (h : commit ≤ k ∨ full.length ≤ k ∨ ¬ x <+: full) :
    min commit (merge full x).length ≤ k := by
  by_cases hpre : x <+: full
  · rw [merge_eq_left hpre]
    rcases h with h | h | h
    · omega
    · omega
    · exact absurd hpre h
  · rw [merge_eq_right hpre]
    omega

section

variable (hG : γ.Global M ldr) (h : LogNode ρ M ldr γ p d r)

include hG h

theorem LogNode.conflict (hm : AppendOk ρ M ldr γ m) {e : LogEntry} (he : e ∈ m.entries)
    (hb : r.base.lastIndex < e.index) (hle : e.index ≤ r.lastIndex)
    (hne : r.termAt e.index ≠ e.term) :
    ¬ (γ.hist.llog m.term).take (m.prevIndex + m.entries.length) <+: γ.hist.log p := by
  intro hpre
  obtain ⟨i, hi⟩ := List.getElem?_of_mem he
  have hilt : i < m.entries.length := (getElem?_eq_some_iff.mp hi).1
  have hL : (γ.hist.llog m.term)[m.prevIndex + i]? = some e := by
    rw [← getElem?_drop]
    exact getElem?_of_isPrefix hm.entries hi
  have hidx : e.index = m.prevIndex + i + 1 := hG.indexed _ hm.led _ _ hL
  have hfull : (γ.hist.log p)[m.prevIndex + i]? = some e := by
    apply getElem?_of_isPrefix hpre
    rw [getElem?_take_of_lt (by omega)]
    exact hL
  apply hne
  rw [h.window.lastIndex_eq] at hle
  rw [h.window.termAt_eq hb.le hle, hidx]
  exact termOf_succ_of_getElem? _ hfull

theorem LogNode.base_agrees (hled : γ.hist.led r.hard.term) :
    r.base.lastIndex ≤ (γ.hist.llog r.hard.term).length ∧
      (γ.hist.llog r.hard.term).take r.base.lastIndex <+: γ.hist.log p := by
  cases ρ with
  | uncompacted =>
    rw [h.plain rfl]
    exact ⟨Nat.zero_le _, nil_prefix⟩
  | guarded =>
    have hc := h.commit rfl
    have hpre := hc.prefix_leader hG hled
    have hlen : r.base.lastIndex ≤ ((γ.hist.log p).take r.commit).length := by
      rw [length_take]
      have := hc.base_le
      have := hc.le_length
      omega
    refine ⟨hlen.trans hpre.length_le, ?_⟩
    rw [prefix_take_eq hpre hlen]
    exact (List.take_prefix _ _).trans (List.take_prefix _ _)

theorem LogNode.handleAppendEntries (hm : LogMsg ρ M ldr γ m) (hto : m.to_ = p)
    (hkind : m.kind = .appendEntries) (hterm : m.term = r.hard.term) (hcov : ρ = .guarded → CommitCovered r m)
    (htf : r.ready.truncateFrom = 0) :
    LogOk ρ M ldr γ p d r.commit (r.handleAppendEntries m) := by
  have happ := hm.append hkind
  have hnl := h.not_leader hterm happ.from_ldr hm.from_ne hto
  obtain ⟨hnode, heard⟩ := h.heard hG hnl m
  rw [Core.handleAppendEntries_heard]
  generalize r.heard m = c at hnode heard ⊢
  have hcterm : c.hard.term = m.term := by rw [heard.hard, hterm]
  have hled : γ.hist.led c.hard.term := by rw [hcterm]; exact happ.led
  have htfc : c.ready.truncateFrom = 0 := heard.truncateFrom.trans htf
  have hne : p ≠ m.from_ := by rw [← hto]; exact hm.from_ne.symm
  have hlast : c.lastIndex = r.lastIndex := by rw [hnode.window.lastIndex_eq, h.window.lastIndex_eq]
  have hcom : ρ = .guarded → CommittedBy LogEntry.term M.members γ.hist c.hard.term
      ((γ.hist.llog c.hard.term).take m.commit) := by
    intro hρ
    rw [hcterm]
    exact (happ.commit hρ).2
  have hlen : m.prevIndex + m.entries.length ≤ (γ.hist.llog m.term).length := by
    have h1 := happ.entries.length_le
    have h2 := happ.prev_le
    rw [length_drop] at h1
    omega
  have hxlen : ((γ.hist.llog m.term).take (m.prevIndex + m.entries.length)).length =
      m.prevIndex + m.entries.length := by
    rw [length_take]
    omega
  -- the condition on the message, unless it is rejected or covered by the base
  have hinside : ρ = .guarded → r.commit < m.commit →
      r.base.lastIndex ≤ m.prevIndex ∨ r.base.lastIndex < m.prevIndex + m.entries.length →
      (r.base.lastIndex ≤ m.prevIndex → m.prevIndex ≤ r.lastIndex ∧
        r.termAt m.prevIndex = m.prevTerm) →
      min m.commit (merge (γ.hist.log p) ((γ.hist.llog m.term).take
        (m.prevIndex + m.entries.length))).length ≤ m.prevIndex + m.entries.length := by
    intro hρ hlt hbase hacc
    apply min_commit_le hxlen
    rcases hcov hρ with hc | hc | hc | ⟨e, he, hb, hle, hne⟩ | hc | ⟨hb, hc⟩
    · omega
    · exact .inl hc
    · exact .inr (.inl (by rw [← h.window.lastIndex_eq]; exact hc))
    · exact .inr (.inr (h.conflict hG happ he hb hle hne))
    · omega
    · obtain ⟨hin, hpt⟩ := hacc hb
      rcases hc with hc | hc
      · omega
      · exact absurd hpt hc
  split
  · -- the message starts below the base
    rename_i hbelow
    rw [heard.base] at hbelow
    obtain ⟨hbl, hbase⟩ := hnode.base_agrees hG hled
    rw [heard.base, hcterm] at hbl hbase
    split
    · -- it is covered by the base: acknowledge the base
      rename_i hcovered
      rw [heard.base] at hcovered ⊢
      have hmax : max r.base.lastIndex (m.prevIndex + m.entries.length) = r.base.lastIndex := by
        omega
      have hack := hnode.acknowledge hG heard.role hbase
      refine hack.reply hG heard.role (by rw [hnode.term]; exact hled) ?_ hne (.inl rfl) rfl ?_
        fun _ => ⟨heard.commit.ge, .inl htfc⟩
      · rw [hnode.term, hcterm]
        exact List.take_prefix r.base.lastIndex _
      · show max r.base.lastIndex _ ≤ _
        rw [hmax, length_take]
        omega
    · rename_i hcovered
      rw [heard.base] at hcovered ⊢
      have hsum : r.base.lastIndex + (m.entries.drop (r.base.lastIndex - m.prevIndex)).length =
          m.prevIndex + m.entries.length := by
        rw [length_drop]
        omega
      rw [← heard.commit]
      refine hnode.acceptEntries (m := m) hG heard.role hled _ r.base.lastIndex r.base.lastTerm
        (m.entries.drop (r.base.lastIndex - m.prevIndex)) rfl hne rfl
        (by rw [heard.base]) ?_ ?_ ?_ hcom ?_ htfc
      · rw [hcterm]
        have hdrop : (γ.hist.llog m.term).drop r.base.lastIndex =
            ((γ.hist.llog m.term).drop m.prevIndex).drop (r.base.lastIndex - m.prevIndex) := by
          rw [drop_drop]
          congr 1
          omega
        rw [hdrop]
        exact drop_prefix_drop happ.entries (by omega)
      · rw [hcterm]; exact hbl
      · intro _ _
        rw [hcterm]
        exact hbase
      · intro hρ hlt _ _
        rw [hcterm, hsum]
        rw [heard.commit] at hlt
        exact hinside hρ hlt (.inr (by omega)) (fun hb => absurd hbelow (by omega))
  · rename_i habove
    rw [heard.base] at habove
    rw [← heard.commit]
    refine hnode.acceptEntries (m := m) hG heard.role hled _ m.prevIndex m.prevTerm m.entries
      rfl hne rfl (by rw [heard.base]; omega) (by rw [hcterm]; exact happ.entries)
      (by rw [hcterm]; exact happ.prev_le) ?_ hcom ?_ htfc
    · -- the consistency check: same term at the same index
      intro hin hpt
      rw [hcterm]
      rw [hnode.window.lastIndex_eq] at hin
      rw [hnode.window.termAt_eq (by rw [heard.base]; omega) hin, happ.prev_term] at hpt
      obtain hz | ⟨k, hk⟩ : m.prevIndex = 0 ∨ ∃ k, m.prevIndex = k + 1 := by
        cases m.prevIndex with
        | zero => exact .inl rfl
        | succ k => exact .inr ⟨k, rfl⟩
      · rw [hz, take_zero]
        exact nil_prefix
      · have hprev := happ.prev_le
        rw [hk] at hpt hin hprev ⊢
        rw [← LogNode.matching hG p happ.led k hin hprev hpt]
        exact List.take_prefix _ _
    · intro hρ hlt hin hpt
      rw [hcterm]
      rw [heard.commit] at hlt
      rw [hlast] at hin
      have hpt' : r.termAt m.prevIndex = m.prevTerm := by
        rw [← hpt, h.window.termAt_eq (by omega) (by rw [← h.window.lastIndex_eq]; exact hin),
          hnode.window.termAt_eq (by rw [heard.base]; omega)
            (by rw [← h.window.lastIndex_eq]; exact hin)]
      exact hinside hρ hlt (.inl (by omega)) (fun _ => ⟨hin, hpt'⟩)

end

theorem LogNode.merge_snapshot (h : LogNode ρ M ldr γ p d r) (hm : SnapshotOk ρ M ldr γ m)
    (hnew : r.commit < m.snapIndex) (hbase : r.base.lastIndex ≤ r.commit)
    (hfresh : SnapshotFresh r m) :
    merge (γ.hist.log p) ((γ.hist.llog m.term).take m.snapIndex) =
      (γ.hist.llog m.term).take m.snapIndex := by
  have hlen : ((γ.hist.llog m.term).take m.snapIndex).length = m.snapIndex := by
    rw [length_take]
    have := hm.snap_le
    omega
  by_cases hpre : (γ.hist.llog m.term).take m.snapIndex <+: γ.hist.log p
  · rw [merge_eq_left hpre]
    rcases hfresh with hstale | hend | hterm
    · omega
    · -- the snapshot reaches the end of the log
      rw [h.window.lastIndex_eq] at hend
      refine (hpre.eq_of_length ?_).symm
      have := hpre.length_le
      omega
    · exfalso
      have hle : m.snapIndex ≤ (γ.hist.log p).length := by
        rw [← hlen]; exact hpre.length_le
      apply hterm
      rw [h.window.termAt_eq (by omega) hle, prefix_termOf _ hpre hlen.ge, hm.snap_term,
        prefix_termOf _ (List.take_prefix _ _) hlen.ge]
  · exact merge_eq_right hpre

theorem LogNode.handleInstallSnapshot (hG : γ.Global M ldr) (h : LogNode ρ M ldr γ p d r)
    (hm : LogMsg ρ M ldr γ m) (hto : m.to_ = p) (hkind : m.kind = .installSnapshot)
    (hterm : m.term = r.hard.term) (hfresh : ρ = .guarded → SnapshotFresh r m)
    (htf : r.ready.truncateFrom = 0) :
    LogOk ρ M ldr γ p d r.commit (r.handleInstallSnapshot m) := by
  have hsnap := hm.snapshot hkind
  have hρ := hsnap.guarded
  have hnl := h.not_leader hterm hsnap.from_ldr hm.from_ne hto
  obtain ⟨hnode, heard⟩ := h.heard hG hnl m
  rw [Core.handleInstallSnapshot_heard]
  generalize r.heard m = c at hnode heard ⊢
  have hcterm : c.hard.term = m.term := by rw [heard.hard, hterm]
  have hled : γ.hist.led c.hard.term := by rw [hcterm]; exact hsnap.led
  have hled' : γ.hist.led (γ.hist.term p) := by rw [hnode.term]; exact hled
  have hne : p ≠ m.from_ := by rw [← hto]; exact hm.from_ne.symm
  have hck := hnode.commit hρ
  split
  · -- stale: everything up to the commit index is acknowledged
    have hpre : (γ.hist.log p).take c.commit <+: γ.hist.log p := List.take_prefix _ _
    have hack := hnode.acknowledge hG heard.role hpre
    refine hack.reply hG heard.role hled' ?_ hne (.inr rfl) rfl ?_
      fun _ => ⟨heard.commit.ge, .inl (heard.truncateFrom.trans htf)⟩
    · rw [hnode.term]
      exact hck.prefix_leader hG hled
    · show c.commit ≤ _
      rw [length_take]
      have := hck.le_length
      omega
  · rename_i hnew
    have hlt : r.commit < m.snapIndex := by rw [← heard.commit]; omega
    obtain ⟨x, hx⟩ : ∃ x, x = (γ.hist.llog m.term).take m.snapIndex := ⟨_, rfl⟩
    have hxlen : x.length = m.snapIndex := by
      rw [hx, length_take]
      have := hsnap.snap_le
      omega
    have hxL : x <+: γ.hist.llog m.term := by rw [hx]; exact List.take_prefix _ _
    have hlog : (γ.accept p x).hist.log p = x := by
      rw [accept_log, hx]
      exact h.merge_snapshot hsnap hlt (h.commit hρ).base_le (hfresh hρ)
    have hmoves : γ.Moves ldr p (γ.accept p x) := moves_accept γ p x
    have hwin : Window ⟨m.snapIndex, m.snapTerm, m.snapData⟩ [] x := by
      refine ⟨hxlen.ge, ?_, ?_⟩
      · rw [List.drop_of_length_le hxlen.le]
      · rw [hsnap.snap_term, prefix_termOf _ hxL hxlen.ge]
    have hcom : CommittedBy LogEntry.term M.members γ.hist m.term x := by
      rw [hx]; exact hsnap.committed
    have htake : x.take m.snapIndex = x := take_of_length_le hxlen.le
    refine LogNode.reply hG ?_ heard.role hled' (by rw [hnode.term, hcterm]; exact hxL) hne
      (.inr rfl) rfl hxlen.ge fun _ => ⟨hlt.le, .inl rfl⟩
    refine hnode.rewrite hG hmoves rfl rfl rfl id ?_ ?_ ?_ ?_ ?_ ?_ ?_ rfl nofun
    · rw [hlog]
      exact (hG.indexed _ hsnap.led).restrict hxL
    · rw [hlog]; exact hwin
    · rw [hlog]; exact ⟨hwin, le_rfl⟩
    · exact fun hcand => nomatch heard.role.symm.trans hcand
    · exact fun hl => nomatch heard.role.symm.trans hl
    · intro _
      refine ⟨le_rfl, rfl, ?_, ?_⟩
      · rw [hlog]; exact hxlen.ge
      · rw [hlog]
        show CommittedBy _ _ _ c.hard.term (x.take m.snapIndex)
        rw [htake, hcterm]
        exact hcom.mono hG.sound hmoves.ext le_rfl
    · intro hρ'
      rw [hρ] at hρ'
      cases hρ'

end

end Flotilla.Raft
