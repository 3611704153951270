/-
  Raft.Proposals — the log as its proposers see it.

  `Propose` appends to the log of the leader and returns the index and the term
  of the new entry.  `ProposeAndWait` takes the entry that is applied with this
  index and this term for its own, and `TsTick` hands the index out as a
  timestamp.  The transactions rest on two facts about these indexes: no two
  callers get the same one, and who proposes after an entry was emitted gets a
  larger one.  Both hold because a leader only appends.
-/
import Flotilla.Raft.Minted
import Flotilla.Raft.Safety

namespace Flotilla.Raft

open ReplicatedLog

/-! ## The leader's log. -/

/-- **Leader append-only**: the leader of a term in two states of a run is one node, and the later
log goes on where the earlier one ends. -/
theorem leader_append_only {ρ : Regime} {M : Membership} {cfg : NodeId → Config}
    (hcfg : ∀ n ∈ M.peers, (cfg n).Valid M n) {es₁ es₂ : List Event} {s₁ s₂ : Cluster}
    {os₁ os₂ : List Output} (hrun₁ : (boot cfg).run M es₁ = some (s₁, os₁))
    (hrun₂ : s₁.run M es₂ = some (s₂, os₂)) (hallowed₁ : Cluster.Along M (Allowed ρ) (boot cfg) es₁)
    (hallowed₂ : Cluster.Along M (Allowed ρ) s₁ es₂) {p q : NodeId} (hp : p ∈ M.peers)
    (hq : q ∈ M.peers) (hlead : (s₁.nodes p).raft.role = .leader)
    (hlater : (s₂.nodes q).raft.role = .leader)
    (hterm : (s₁.nodes p).raft.hard.term = (s₂.nodes q).raft.hard.term) :
    p = q ∧ (s₁.nodes p).raft.lastIndex ≤ (s₂.nodes q).raft.lastIndex ∧
      ∀ i ≤ (s₁.nodes p).raft.lastIndex, (s₁.nodes p).raft.base.lastIndex < i →
        (s₂.nodes q).raft.base.lastIndex < i →
        (s₂.nodes q).raft.entry? i = (s₁.nodes p).raft.entry? i := by
  obtain ⟨B₁, γ₁, _, _, hinv₁, _⟩ := raft_run (raft_boot ρ hcfg) hallowed₁ hrun₁
  obtain ⟨B₂, γ₂, hkeep, hext, hinv₂, _⟩ := raft_run hinv₁ hallowed₂ hrun₂
  have hlogp := (hinv₁.node p hp).2
  have hlogq := (hinv₂.node q hq).2
  have hleadp := hlogp.lead hlead
  have hleadq := hlogq.lead hlater
  have hsame : B₂.ldr (s₁.nodes p).raft.hard.term = p :=
    (hkeep _ (hinv₁.global.2.led_ldr _ hleadp.led)).trans hleadp.is_ldr
  -- both logs are the log of the term's leader, at two times
  have hpre : γ₁.hist.log p <+: γ₂.hist.log q := by
    rw [hleadp.log_eq, hleadq.log_eq, ← hterm]
    exact hext.llog _ hleadp.led
  have hlenp : (s₁.nodes p).raft.lastIndex = (γ₁.hist.log p).length := hlogp.window.lastIndex_eq
  refine ⟨?_, ?_, fun i hi hbp hbq => ?_⟩
  · rw [← hsame, hterm]
    exact hleadq.is_ldr
  · rw [hlenp, hlogq.window.lastIndex_eq]
    exact hpre.length_le
  · rw [hlogq.window.entry?_eq hbq, hlogp.window.entry?_eq hbp]
    obtain ⟨x, hx⟩ : ∃ x, (γ₁.hist.log p)[i - 1]? = some x :=
      ⟨_, getElem?_eq_getElem (by omega)⟩
    exact (getElem?_of_isPrefix hpre hx).trans hx.symm

/-- Leader 1 after its no-op, and after a proposal. -/
theorem leader_append_only_proposal : ∃ s₁ os₁ s₂ os₂,
    (boot (eagerConfig 128)).run threeNodes electOne = some (s₁, os₁) ∧
    s₁.run threeNodes [.propose 1 [7]] = some (s₂, os₂) ∧ (s₂.nodes 1).raft.lastIndex = 2 ∧
    (s₂.nodes 1).raft.entry? 1 = (s₁.nodes 1).raft.entry? 1 := by
  obtain ⟨⟨s₁, os₁⟩, hrun₁, ⟨s₂, os₂⟩, hrun₂, hlead, hlater, hterm, hlast, hbase, hbase', htwo⟩ :
      ∃ x, (boot (eagerConfig 128)).run threeNodes electOne = some x ∧
        ∃ y, x.1.run threeNodes [.propose 1 [7]] = some y ∧
          (x.1.nodes 1).raft.role = .leader ∧ (y.1.nodes 1).raft.role = .leader ∧
          (x.1.nodes 1).raft.hard.term = (y.1.nodes 1).raft.hard.term ∧
          (x.1.nodes 1).raft.lastIndex = 1 ∧ (x.1.nodes 1).raft.base.lastIndex = 0 ∧
          (y.1.nodes 1).raft.base.lastIndex = 0 ∧ (y.1.nodes 1).raft.lastIndex = 2 := by
    decide +kernel
  refine ⟨s₁, os₁, s₂, os₂, hrun₁, hrun₂, htwo, ?_⟩
  exact (leader_append_only (fun n _ => eagerConfig_valid 128 n) hrun₁ hrun₂
    (along_uncompacted (by decide)) (along_uncompacted (by decide)) (by decide) (by decide) hlead
    hlater hterm).2.2 1 hlast.ge (hbase.trans_lt Nat.one_pos) (hbase'.trans_lt Nat.one_pos)

/-! ## What a proposal gets. -/

section

variable {M : Membership} {B : Ballot} {γ γ' : Ghost} {ldr ldr' : Nat → NodeId}

/-- The new entry is the first beyond the log of its term's leader. -/
theorem propose_appends {B' : Ballot} {s s' : Cluster} {o : Output} {n : NodeId} {command : Bytes}
    (h : (raftInvariant .guarded M).Holds M (B, γ) s)
    (h' : (raftInvariant .guarded M).Holds M (B', γ') s')
    (hstep : s.step M (.propose n command) = some (s', o)) :
    let r := (s.nodes n).raft
    r.lastIndex = (γ.hist.llog r.hard.term).length ∧ γ'.hist.led r.hard.term ∧
      r.lastIndex + 1 = (γ'.hist.llog r.hard.term).length := by
  intro r
  simp only [Cluster.step] at hstep
  split at hstep
  · rename_i hn
    obtain ⟨r', hr, hdrain⟩ := map_eq_some_iff.mp hstep
    have helect := Core.sameElection_propose hr
    have hlead : r.role = .leader := by
      by_contra hnot
      rw [Core.propose, if_pos hnot] at hr
      cases hr
    have hnode := (h.node n hn).2
    have hnode' := (h'.node n hn).2
    have hdrained : s' = (s.drain n r').1 := congrArg Prod.fst hdrain.symm
    rw [hdrained, Cluster.drain_nodes_self] at hnode'
    -- the node's log is the log of its term, before and after
    have hled := hnode.lead hlead
    have hled' := hnode'.lead (helect.role.trans hlead)
    have hlog' := hled'.log_eq
    rw [show ({ r' with ready := {} } : Core).hard = r.hard from helect.hard] at hlog'
    refine ⟨?_, ?_, ?_⟩
    · rw [← hled.log_eq]
      exact hnode.window.lastIndex_eq
    · rw [← helect.hard]
      exact hled'.led
    · rw [← hlog', ← Core.propose_lastIndex hr]
      exact hnode'.window.lastIndex_eq
  · cases hstep

theorem raft_propose {s s' : Cluster} {n : NodeId} {command : Bytes} {es : List Event}
    {os : List Output} (h : (raftInvariant .guarded M).Holds M (B, γ) s)
    (hguard : Cluster.Along M Guarded s (.propose n command :: es))
    (hrun : s.run M (.propose n command :: es) = some (s', os)) :
    ∃ B' γ', γ.hist.Extends γ'.hist ∧ (raftInvariant .guarded M).Holds M (B', γ') s' ∧
      (∀ o ∈ os, ∀ x ∈ o.ready.committed, Emittable M γ' x) ∧
      (s.nodes n).raft.lastIndex = (γ.hist.llog (s.nodes n).raft.hard.term).length ∧
      (s.nodes n).raft.lastIndex < (γ'.hist.llog (s.nodes n).raft.hard.term).length := by
  obtain ⟨s₁, o, os', hstep, hrest, rfl⟩ := Cluster.run_cons hrun
  have hhead : Allowed .guarded s (.propose n command) := hguard.head
  obtain ⟨B₁, γ₁, _, hext₁, h₁, hfacts⟩ := raft_step h hhead hstep
  obtain ⟨B', γ', _, hext, h', hemitted⟩ := raft_run h₁ (hguard.tail hstep) hrest
  obtain ⟨hlast, hled, hnext⟩ := propose_appends h h₁ hstep
  have hgrows := (hext.llog _ hled).length_le
  refine ⟨B', γ', hext₁.trans hext, h', fun o' ho' x hx => ?_, hlast, by omega⟩
  rcases mem_cons.mp ho' with rfl | ho'
  · exact (hfacts.emitted rfl x hx).mono h₁.global.2 hext
  · exact hemitted rfl o' ho' x hx

theorem owned_of_committedBy (hG : γ.Global M ldr) {b : Nat} {l : List LogEntry}
    (hl : CommittedBy LogEntry.term M.members γ.hist b l) : Owned LogEntry.term γ.hist l := by
  rcases hl with rfl | ⟨t, n, _, hcom, hpre⟩
  · exact nofun
  · exact (hG.sound.owned_llog t hcom.2.2.1).restrict (hpre.trans (List.take_prefix _ _))

/-- What is committed up to a committed entry was in the log of its leader by then. -/
theorem llog_covers (hG : γ.Global M ldr) (hG' : γ'.Global M ldr')
    (hE : γ.hist.Extends γ'.hist) {e f : LogEntry} (he : Emittable M γ e)
    (hf : Emittable M γ' f) (hle : f.index ≤ e.index) :
    f.index ≤ (γ.hist.llog f.term).length := by
  obtain ⟨b, l, i, hl, hi, hei⟩ := he
  obtain ⟨b', l', j, hl', hj, hfj⟩ := hf
  have hlen : i < l.length := (getElem?_eq_some_iff.mp hi).1
  -- committed pieces agree, so `f` stands in the one of `e`
  have hjl : l[j]? = some f := by
    rcases (hl.mono hG.sound hE le_rfl).comparable hG'.sound hl' with hpre | hpre
    · obtain ⟨g, hg⟩ : ∃ g, l[j]? = some g := ⟨_, getElem?_eq_getElem (by omega)⟩
      have hboth := getElem?_of_isPrefix hpre hg
      rw [hj] at hboth
      rw [hg, hboth]
    · exact getElem?_of_isPrefix hpre hj
  have hcut := (owned_of_committedBy hG hl j f hjl).2.length_le
  rw [length_take] at hcut
  omega

end

/-- The entry that `ProposeAndWait` on node `n` waits for, if it proposes in state `s`. -/
def Awaits (s : Cluster) (n : NodeId) (e : LogEntry) : Prop :=
  e.index = (s.nodes n).raft.lastIndex + 1 ∧ e.term = (s.nodes n).raft.hard.term

instance (s : Cluster) (n : NodeId) (e : LogEntry) : Decidable (Awaits s n e) :=
  inferInstanceAs (Decidable (_ ∧ _))

/-- **Indexes are timestamps.**  Two proposals of a guarded run, on whichever nodes, whose entries
are both emitted, have different indexes; and if the first entry is emitted before the second is
proposed, the second index is larger. -/
theorem proposal_indexes_ordered {M : Membership} {cfg : NodeId → Config}
    (hcfg : ∀ n ∈ M.peers, (cfg n).Valid M n) {es₁ es₂ es₃ : List Event} {s₁ s₂ s₃ : Cluster}
    {os₁ os₂ os₃ : List Output} {n₁ n₂ : NodeId} {c₁ c₂ : Bytes}
    (hrun₁ : (boot cfg).run M es₁ = some (s₁, os₁))
    (hrun₂ : s₁.run M (.propose n₁ c₁ :: es₂) = some (s₂, os₂))
    (hrun₃ : s₂.run M (.propose n₂ c₂ :: es₃) = some (s₃, os₃))
    (hguard₁ : Cluster.Along M Guarded (boot cfg) es₁)
    (hguard₂ : Cluster.Along M Guarded s₁ (.propose n₁ c₁ :: es₂))
    (hguard₃ : Cluster.Along M Guarded s₂ (.propose n₂ c₂ :: es₃)) {e f : LogEntry}
    (he : Awaits s₁ n₁ e) (hf : Awaits s₂ n₂ f)
    (heout : ∃ o ∈ os₂ ++ os₃, e ∈ o.ready.committed) (hfout : ∃ o ∈ os₃, f ∈ o.ready.committed) :
    e.index ≠ f.index ∧ ((∃ o ∈ os₂, e ∈ o.ready.committed) → e.index < f.index) := by
  obtain ⟨B₁, γ₁, _, _, h₁, _⟩ := raft_run (raft_boot .guarded hcfg) hguard₁ hrun₁
  obtain ⟨B₂, γ₂, _, h₂, hout₂, _, hnext⟩ := raft_propose h₁ hguard₂ hrun₂
  obtain ⟨B₃, γ₃, hext, h₃, hout₃, hlast, _⟩ := raft_propose h₂ hguard₃ hrun₃
  obtain ⟨o, ho, hfo⟩ := hfout
  have hfemit := hout₃ o ho f hfo
  rw [← he.2] at hnext
  rw [← hf.2] at hlast
  have heindex := he.1
  have hfindex := hf.1
  refine ⟨fun heq => ?_, fun hearly => ?_⟩
  · -- one index is one entry, and its leader had given the index out before
    have heemit : Emittable M γ₃ e := by
      obtain ⟨o', ho', heo⟩ := heout
      rcases mem_append.mp ho' with ho' | ho'
      · exact (hout₂ o' ho' e heo).mono h₂.global.2 hext
      · exact hout₃ o' ho' e heo
    have hsame := heemit.unique h₃.global.2 hfemit heq
    rw [hsame] at hnext heindex
    omega
  · -- else the second entry was in its leader's log before it was proposed
    by_contra hnot
    obtain ⟨o', ho', heo⟩ := hearly
    have hcovers : f.index ≤ (γ₂.hist.llog f.term).length :=
      llog_covers h₂.global.2 h₃.global.2 hext (hout₂ o' ho' e heo) hfemit (by omega)
    omega

/-- Leader 1 commits a proposal, and node 2 leads the next term. -/
def proposeFirst : List Event :=
  [.propose 1 [], .deliver 5, .deliver 7, .tick 2, .deliver 9, .deliver 10]

def proposeSecond : List Event := [.propose 2 [], .deliver 13, .deliver 15]

theorem proposal_indexes_ordered_two_leaders : ∃ s₁ os₁ s₂ os₂ s₃ os₃ e f,
    (boot (eagerConfig 10)).run threeNodes electOne = some (s₁, os₁) ∧
    s₁.run threeNodes proposeFirst = some (s₂, os₂) ∧
    s₂.run threeNodes proposeSecond = some (s₃, os₃) ∧
    Awaits s₁ 1 e ∧ Awaits s₂ 2 f ∧ e.index < f.index := by
  obtain ⟨⟨s₁, os₁⟩, hrun₁, ⟨s₂, os₂⟩, hrun₂, ⟨s₃, os₃⟩, hrun₃, hguard₂, hguard₃, o, ho, e, heo, p, hp,
      f, hfp, he, hf⟩ : ∃ x, (boot (eagerConfig 10)).run threeNodes electOne = some x ∧
    ∃ y, x.1.run threeNodes proposeFirst = some y ∧ ∃ z, y.1.run threeNodes proposeSecond = some z ∧
      Cluster.Along threeNodes Guarded x.1 proposeFirst ∧
      Cluster.Along threeNodes Guarded y.1 proposeSecond ∧
      ∃ o ∈ y.2, ∃ e ∈ o.ready.committed, ∃ p ∈ z.2, ∃ f ∈ p.ready.committed,
        Awaits x.1 1 e ∧ Awaits y.1 2 f := by decide +kernel
  refine ⟨s₁, os₁, s₂, os₂, s₃, os₃, e, f, hrun₁, hrun₂, hrun₃, he, hf, ?_⟩
  exact (proposal_indexes_ordered (fun n _ => eagerConfig_valid 10 n) hrun₁ hrun₂ hrun₃
    (by decide +kernel) hguard₂ hguard₃ he hf ⟨o, mem_append_left _ ho, heo⟩ ⟨p, hp, hfp⟩).2
      ⟨o, ho, heo⟩

end Flotilla.Raft
