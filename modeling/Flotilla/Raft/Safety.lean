/-
  Raft.Safety — log matching, leader completeness, durable
  acknowledgements and state machine safety.

  The first two hold in every run without compaction.  The other two hold in
  every guarded run, with compaction; without the guard they fail, and the
  shortest such runs follow the theorems.
-/
import Flotilla.Raft.Reachable

namespace Flotilla.Raft

open ReplicatedLog

/-! ## What the invariant says about a state. -/

section

variable {ρ : Regime} {M : Membership} {B : Ballot} {γ γ' : Ghost} {s : Cluster} {p q : NodeId}

theorem Ghost.Global.matching {ldr : Nat → NodeId} (hG : γ.Global M ldr) {i j : Nat}
    {e f : LogEntry} (he : (γ.hist.log p)[i]? = some e) (hf : (γ.hist.log q)[i]? = some f)
    (hterm : e.term = f.term) (hj : j ≤ i) : (γ.hist.log p)[j]? = (γ.hist.log q)[j]? := by
  have htake := (hG.sound.owned_log p).agree (hG.sound.owned_log q) he hf hterm
  have hlt : j < i + 1 := by omega
  rw [← getElem?_take_of_lt hlt, htake, getElem?_take_of_lt hlt]

theorem Emittable.unique {ldr : Nat → NodeId} (hG : γ.Global M ldr) {e f : LogEntry}
    (he : Emittable M γ e) (hf : Emittable M γ f) (hidx : e.index = f.index) : e = f := by
  obtain ⟨b, l, k, hl, hk, hik⟩ := he
  obtain ⟨b', l', k', hl', hk', hik'⟩ := hf
  obtain rfl : k = k' := by omega
  rcases hl.comparable hG.sound hl' with hpre | hpre
  · have hboth := getElem?_of_isPrefix hpre hk
    rw [hk'] at hboth
    exact (Option.some.inj hboth).symm
  · have hboth := getElem?_of_isPrefix hpre hk'
    rw [hk] at hboth
    exact Option.some.inj hboth

theorem LeadOk.peer_holds {ldr : Nat → NodeId} {r : Core} (hG : γ.Global M ldr)
    (h : LeadOk M ldr γ p r) (hq : q ∈ M.peers) (hterm : γ.hist.term q = r.hard.term) :
    (γ.hist.log p).take (r.match_.getD q 0) <+: γ.hist.log q ∧
      r.match_.getD q 0 ≤ (γ.hist.log p).length := by
  have hack := h.matched q hq
  have hlen : r.match_.getD q 0 ≤ (γ.hist.log p).length := by
    rw [h.log_eq]
    exact hack.trans (hG.sound.ack_le _ _)
  refine ⟨?_, hlen⟩
  rcases hG.sound.kept _ q _ hack with hpre | ⟨u, hu, hu', _⟩
  · rw [h.log_eq]
    exact hpre
  · omega

theorem CommitOk.committed_stable {ldr ldr' : Nat → NodeId} {r r' : Core} (hG : γ.Global M ldr)
    (hG' : γ'.Global M ldr') (hE : γ.hist.Extends γ'.hist) (h : CommitOk M γ p r)
    (h' : CommitOk M γ' p r') (hle : r.commit ≤ r'.commit) :
    (γ.hist.log p).take r.commit <+: γ'.hist.log p := by
  have hlen : ((γ.hist.log p).take r.commit).length = r.commit := by
    rw [length_take]
    have := h.le_length
    omega
  have hlen' : ((γ'.hist.log p).take r'.commit).length = r'.commit := by
    rw [length_take]
    have := h'.le_length
    omega
  have hold := h.committed.mono hG.sound hE (le_refl r.hard.term)
  have hpre : (γ.hist.log p).take r.commit <+: (γ'.hist.log p).take r'.commit := by
    rcases hold.comparable hG'.sound h'.committed with hpre | hpre
    · exact hpre
    · have hback := hpre.length_le
      rw [hpre.eq_of_length (by omega)]
  exact hpre.trans (List.take_prefix _ _)

end

/-! ## Runs without compaction. -/

/-- **Log matching**: where two logs hold an entry of the same term, they hold the
same entries up to there. -/
theorem log_matching {M : Membership} {cfg : NodeId → Config}
    (hcfg : ∀ n ∈ M.peers, (cfg n).Valid M n) {es : List Event} {s : Cluster} {os : List Output}
    (hrun : (boot cfg).run M es = some (s, os)) (hplain : ∀ e ∈ es, ¬ e.Compacts)
    {p q : NodeId} (hp : p ∈ M.peers) (hq : q ∈ M.peers) {i : Nat} {e f : LogEntry}
    (he : (s.nodes p).raft.entry? i = some e) (hf : (s.nodes q).raft.entry? i = some f)
    (hterm : e.term = f.term) :
    ∀ j, j ≤ i → (s.nodes p).raft.entry? j = (s.nodes q).raft.entry? j := by
  obtain ⟨B, γ, _, _, hinv, _⟩ :=
    raft_run (raft_boot .uncompacted hcfg) (along_uncompacted hplain) hrun
  have hlogp := (hinv.node p hp).2
  have hlogq := (hinv.node q hq).2
  have hbp : (s.nodes p).raft.base.lastIndex = 0 := hlogp.plain rfl
  have hbq : (s.nodes q).raft.base.lastIndex = 0 := hlogq.plain rfl
  intro j hj
  rcases Nat.eq_zero_or_pos j with hz | hpos
  · -- index 0 is the base itself
    subst hz
    unfold Core.entry?
    rw [if_neg (fun hc => absurd hc.1 (by omega)), if_neg (fun hc => absurd hc.1 (by omega))]
  · rw [hlogp.window.entry?_eq (by omega)] at he ⊢
    rw [hlogq.window.entry?_eq (by omega)] at hf ⊢
    exact hinv.global.2.matching he hf hterm (by omega)

/-- Nodes 1 and 2 after the no-op of term 1 has been replicated. -/
theorem log_matching_two_nodes : ∃ s os,
    (boot (eagerConfig 128)).run threeNodes replicateNoop = some (s, os) ∧
    (s.nodes 1).raft.entry? 1 = some ⟨1, 1, []⟩ ∧
    (s.nodes 1).raft.entry? 1 = (s.nodes 2).raft.entry? 1 := by
  obtain ⟨⟨s, os⟩, hrun, h1, h2⟩ : ∃ x,
      (boot (eagerConfig 128)).run threeNodes replicateNoop = some x ∧
        (x.1.nodes 1).raft.entry? 1 = some ⟨1, 1, []⟩ ∧
        (x.1.nodes 2).raft.entry? 1 = some ⟨1, 1, []⟩ := by decide +kernel
  refine ⟨s, os, hrun, h1, ?_⟩
  exact log_matching (fun n _ => eagerConfig_valid 128 n) hrun (by decide) (by decide)
    (by decide) h1 h2 rfl 1 (le_refl 1)

/-- **Leader completeness**: if a step leaves `p` leader of term `T` with a raised
commit index `n`, every later leader of a later term holds the entries that `p`
held at `1 .. n` after that step. -/
theorem leader_completeness_run {M : Membership} {cfg : NodeId → Config}
    (hcfg : ∀ n ∈ M.peers, (cfg n).Valid M n) {es₁ es₂ : List Event} {e : Event}
    {s₁ s₂ s₃ : Cluster} {os₁ os₂ : List Output} {o : Output}
    (hrun₁ : (boot cfg).run M es₁ = some (s₁, os₁)) (hstep : s₁.step M e = some (s₂, o))
    (hrun₂ : s₂.run M es₂ = some (s₃, os₂))
    (hplain : ∀ x ∈ es₁ ++ e :: es₂, ¬ x.Compacts) {p q : NodeId} (hp : p ∈ M.peers)
    (hq : q ∈ M.peers) (hlead : (s₂.nodes p).raft.role = .leader)
    (hraised : (s₂.nodes p).raft.commit ≠ (s₁.nodes p).raft.commit)
    (hlater : (s₃.nodes q).raft.role = .leader)
    (hterm : (s₂.nodes p).raft.hard.term < (s₃.nodes q).raft.hard.term) :
    ∀ i, 0 < i → i ≤ (s₂.nodes p).raft.commit →
      ∃ x, (s₂.nodes p).raft.entry? i = some x ∧ (s₃.nodes q).raft.entry? i = some x := by
  have hplain₁ : ∀ x ∈ es₁, ¬ x.Compacts := fun x hx => hplain x (mem_append_left _ hx)
  have hplain₂ : ∀ x ∈ es₂, ¬ x.Compacts := fun x hx =>
    hplain x (mem_append_right _ (mem_cons_of_mem _ hx))
  have hplaine : ¬ e.Compacts := hplain e (mem_append_right _ mem_cons_self)
  obtain ⟨B₁, γ₁, _, _, hinv₁, _⟩ :=
    raft_run (raft_boot .uncompacted hcfg) (along_uncompacted hplain₁) hrun₁
  obtain ⟨B₂, γ₂, _, _, hinv₂, hfacts⟩ := raft_step hinv₁ hplaine hstep
  obtain ⟨B₃, γ₃, _, hext, hinv₃, _⟩ := raft_run hinv₂ (along_uncompacted hplain₂) hrun₂
  have hlogp := (hinv₂.node p hp).2
  have hlogq := (hinv₃.node q hq).2
  have hleadp := hlogp.lead hlead
  have hleadq := hlogq.lead hlater
  have hsound₂ := hinv₂.global.2.sound
  have hsound₃ := hinv₃.global.2.sound
  -- the raised index is committed, and stays committed in the later history
  have hcom := hfacts.raised p hp hlead hraised
  have hlen := hcom.le_length hsound₂
  have hpre := hsound₃.leader_completeness (hcom.mono hsound₂ hext) hterm hleadq.led
  rw [prefix_take_eq (hext.llog _ hleadp.led) hlen, ← hleadp.log_eq] at hpre
  replace hpre := hpre.trans (hsound₃.ilog_prefix_llog hleadq.led)
  rw [← hleadq.log_eq] at hpre
  replace hlen : (s₂.nodes p).raft.commit ≤ (γ₂.hist.log p).length := by
    rw [hleadp.log_eq]
    exact hlen
  intro i hpos hi
  have hbp : (s₂.nodes p).raft.base.lastIndex = 0 := hlogp.plain rfl
  have hbq : (s₃.nodes q).raft.base.lastIndex = 0 := hlogq.plain rfl
  obtain ⟨x, hx⟩ : ∃ x, (γ₂.hist.log p)[i - 1]? = some x := ⟨_, getElem?_eq_getElem (by omega)⟩
  refine ⟨x, ?_, ?_⟩
  · rw [hlogp.window.entry?_eq (by omega)]
    exact hx
  · rw [hlogq.window.entry?_eq (by omega)]
    apply getElem?_of_isPrefix hpre
    rw [getElem?_take_of_lt (by omega)]
    exact hx

/-- Node 1 commits its no-op in term 1; node 2 leads term 2 with it. -/
theorem leader_completeness_next_term : ∃ s₁ os₁ s₂ o s₃ os₂,
    (boot (eagerConfig 128)).run threeNodes replicateNoop = some (s₁, os₁) ∧
    s₁.step threeNodes (.deliver 5) = some (s₂, o) ∧
    s₂.run threeNodes [.tick 2, .deliver 7, .deliver 8] = some (s₃, os₂) ∧
    ∃ x, (s₂.nodes 1).raft.entry? 1 = some x ∧ (s₃.nodes 2).raft.entry? 1 = some x := by
  obtain ⟨⟨s₁, os₁⟩, hrun₁, ⟨s₂, o⟩, hstep, hlead, hraised, hone, ⟨s₃, os₂⟩, hrun₂, hlater, hterm⟩ :
      ∃ x, (boot (eagerConfig 128)).run threeNodes replicateNoop = some x ∧
        ∃ y, x.1.step threeNodes (.deliver 5) = some y ∧ (y.1.nodes 1).raft.role = .leader ∧
          (y.1.nodes 1).raft.commit ≠ (x.1.nodes 1).raft.commit ∧
          (y.1.nodes 1).raft.commit = 1 ∧
          ∃ z, y.1.run threeNodes [.tick 2, .deliver 7, .deliver 8] = some z ∧
            (z.1.nodes 2).raft.role = .leader ∧
            (y.1.nodes 1).raft.hard.term < (z.1.nodes 2).raft.hard.term := by decide +kernel
  refine ⟨s₁, os₁, s₂, o, s₃, os₂, hrun₁, hstep, hrun₂, ?_⟩
  exact leader_completeness_run (fun n _ => eagerConfig_valid 128 n) hrun₁ hstep hrun₂
    (by decide) (by decide) (by decide) hlead hraised hlater hterm 1 (by decide) hone.ge

/-! ## Guarded runs. -/

/-- **Acknowledged replication is durable**: in a guarded run a peer in the
leader's term holds everything the leader's `match_` says it holds. -/
theorem acknowledged_durable {M : Membership} {cfg : NodeId → Config}
    (hcfg : ∀ n ∈ M.peers, (cfg n).Valid M n) {es : List Event} {s : Cluster} {os : List Output}
    (hrun : (boot cfg).run M es = some (s, os)) (hguard : Cluster.Along M Guarded (boot cfg) es)
    {l p : NodeId} (hl : l ∈ M.peers) (hp : p ∈ M.peers)
    (hlead : (s.nodes l).raft.role = .leader)
    (hterm : (s.nodes p).raft.hard.term = (s.nodes l).raft.hard.term) :
    (s.nodes l).raft.match_.getD p 0 ≤ (s.nodes p).raft.lastIndex ∧
      ∀ i, i ≤ (s.nodes l).raft.match_.getD p 0 → (s.nodes l).raft.base.lastIndex < i →
        (s.nodes p).raft.base.lastIndex < i →
        ∃ x, (s.nodes l).raft.entry? i = some x ∧ (s.nodes p).raft.entry? i = some x := by
  obtain ⟨B, γ, _, _, hinv, _⟩ := raft_run (raft_boot .guarded hcfg) hguard hrun
  have hlogl := (hinv.node l hl).2
  have hlogp := (hinv.node p hp).2
  obtain ⟨hpre, hlen⟩ := (hlogl.lead hlead).peer_holds hinv.global.2 hp
    (hlogp.term.trans hterm)
  generalize hn : (s.nodes l).raft.match_.getD p 0 = n at hpre hlen ⊢
  replace hpre : (γ.hist.log l).take n <+: γ.hist.log p := hpre
  replace hlen : n ≤ (γ.hist.log l).length := hlen
  refine ⟨?_, fun i hi hbl hbp => ?_⟩
  · rw [hlogp.window.lastIndex_eq]
    have hle := hpre.length_le
    rw [length_take] at hle
    show n ≤ (γ.hist.log p).length
    omega
  · obtain ⟨x, hx⟩ : ∃ x, (γ.hist.log l)[i - 1]? = some x :=
      ⟨_, getElem?_eq_getElem (by omega)⟩
    refine ⟨x, ?_, ?_⟩
    · rw [hlogl.window.entry?_eq hbl]
      exact hx
    · rw [hlogp.window.entry?_eq hbp]
      apply getElem?_of_isPrefix hpre
      rw [getElem?_take_of_lt (by omega)]
      exact hx

/-- Node 2 has acknowledged the no-op of leader 1. -/
theorem acknowledged_durable_noop : ∃ s os,
    (boot (eagerConfig 128)).run threeNodes (replicateNoop ++ [.deliver 5]) = some (s, os) ∧
    (s.nodes 1).raft.match_.getD 2 0 = 1 ∧ 1 ≤ (s.nodes 2).raft.lastIndex := by
  obtain ⟨⟨s, os⟩, hrun, hlead, hterm, hone⟩ : ∃ x,
      (boot (eagerConfig 128)).run threeNodes (replicateNoop ++ [.deliver 5]) = some x ∧
        (x.1.nodes 1).raft.role = .leader ∧
        (x.1.nodes 2).raft.hard.term = (x.1.nodes 1).raft.hard.term ∧
        (x.1.nodes 1).raft.match_.getD 2 0 = 1 := by decide +kernel
  refine ⟨s, os, hrun, hone, ?_⟩
  have hdurable := (acknowledged_durable (fun n _ => eagerConfig_valid 128 n) hrun
    (by decide +kernel) (l := 1) (p := 2) (by decide) (by decide) hlead hterm).1
  rw [hone] at hdurable
  exact hdurable

/-- Without the guard: leader 1 commits two entries with node 3, compacts to index 1
and offers node 2 the snapshot.  The append of both entries reaches node 2 first and
is acknowledged; the snapshot then clears node 2's log. -/
theorem acknowledged_lost : ∃ s os,
    (boot (eagerConfig 128)).run threeNodes
      (electOne ++ [.propose 1 [97], .deliver 6, .deliver 7, .compact 1 1 [] true, .tick 1,
        .deliver 5, .deliver 10, .deliver 8]) = some (s, os) ∧
    (s.nodes 1).raft.role = .leader ∧
    (s.nodes 2).raft.hard.term = (s.nodes 1).raft.hard.term ∧
    (s.nodes 1).raft.match_.getD 2 0 = 2 ∧ (s.nodes 2).raft.lastIndex = 1 := by
  rw [← Prod.exists']
  decide +kernel

/-- **State machine safety**: in a guarded run two emitted entries of one index are
the same entry, and an event cuts no log at or below the commit index and lowers
no commit index but that of the node it restarts. -/
theorem state_machine_safety {M : Membership} {cfg : NodeId → Config}
    (hcfg : ∀ n ∈ M.peers, (cfg n).Valid M n) {es : List Event} {s : Cluster} {os : List Output}
    (hrun : (boot cfg).run M es = some (s, os)) (hguard : Cluster.Along M Guarded (boot cfg) es) :
    (∀ o₁ ∈ os, ∀ o₂ ∈ os, ∀ x ∈ o₁.ready.committed, ∀ y ∈ o₂.ready.committed,
      x.index = y.index → x.term = y.term ∧ x.command = y.command) ∧
    ∀ e s' o, Guarded s e → s.step M e = some (s', o) →
      (o.ready.truncateFrom = 0 ∨ (s.nodes o.node).raft.commit < o.ready.truncateFrom) ∧
      ∀ n ∈ M.peers, (∀ c, e ≠ .restart n c) →
        (s.nodes n).raft.commit ≤ (s'.nodes n).raft.commit ∧
        ∀ i ≤ (s.nodes n).raft.commit, (s.nodes n).raft.base.lastIndex < i →
          (s'.nodes n).raft.base.lastIndex < i →
          (s'.nodes n).raft.entry? i = (s.nodes n).raft.entry? i := by
  obtain ⟨B, γ, _, _, hinv, hemitted⟩ := raft_run (raft_boot .guarded hcfg) hguard hrun
  refine ⟨?_, ?_⟩
  · intro o₁ ho₁ o₂ ho₂ x hx y hy hi
    have heq := (hemitted rfl o₁ ho₁ x hx).unique hinv.global.2 (hemitted rfl o₂ ho₂ y hy) hi
    rw [heq]
    exact ⟨rfl, rfl⟩
  · intro e s' o he hstep
    obtain ⟨B', γ', _, hext, hinv', hfacts⟩ := raft_step (ρ := .guarded) hinv he hstep
    refine ⟨hfacts.cut rfl, fun n hn hnot => ?_⟩
    have hle := hfacts.kept rfl n hn hnot
    refine ⟨hle, fun i hi hb hb' => ?_⟩
    have hlog := (hinv.node n hn).2
    have hlog' := (hinv'.node n hn).2
    have hcommit : CommitOk M γ n (s.nodes n).raft := hlog.commit rfl
    have hstable := hcommit.committed_stable hinv.global.2 hinv'.global.2 hext
      (hlog'.commit rfl) hle
    rw [hlog'.window.entry?_eq hb', hlog.window.entry?_eq hb]
    obtain ⟨x, hx⟩ : ∃ x, (γ.hist.log n)[i - 1]? = some x := by
      have := hcommit.le_length
      exact ⟨_, getElem?_eq_getElem (by omega)⟩
    show (γ'.hist.log n)[i - 1]? = (γ.hist.log n)[i - 1]?
    rw [hx]
    apply getElem?_of_isPrefix hstable
    rw [getElem?_take_of_lt (by omega)]
    exact hx

/-- Leader 1 and follower 2 both emit the no-op. -/
theorem state_machine_safety_noop : ∃ s os,
    (boot (eagerConfig 128)).run threeNodes (replicateNoop ++ [.deliver 5, .tick 1, .deliver 6]) =
      some (s, os) ∧
    (∃ o₁ ∈ os, ∃ o₂ ∈ os, o₁.node = 1 ∧ o₁.ready.committed ≠ [] ∧ o₂.node = 2 ∧
      o₂.ready.committed ≠ []) ∧
    ∀ o₁ ∈ os, ∀ o₂ ∈ os, ∀ x ∈ o₁.ready.committed, ∀ y ∈ o₂.ready.committed,
      x.index = y.index → x.term = y.term ∧ x.command = y.command := by
  obtain ⟨⟨s, os⟩, hrun, hboth⟩ : ∃ x, (boot (eagerConfig 128)).run threeNodes
      (replicateNoop ++ [.deliver 5, .tick 1, .deliver 6]) = some x ∧
        ∃ o₁ ∈ x.2, ∃ o₂ ∈ x.2, o₁.node = 1 ∧ o₁.ready.committed ≠ [] ∧ o₂.node = 2 ∧
          o₂.ready.committed ≠ [] := by decide +kernel
  refine ⟨s, os, hrun, hboth, ?_⟩
  exact (state_machine_safety (fun n _ => eagerConfig_valid 128 n) hrun (by decide +kernel)).1

/-- Without the guard, with one entry per message: nodes 2 and 3 commit an entry of
term 2 at index 2, where node 1 still holds one of term 1.  Leader 3 of term 3 sends
node 1 index 1 alone, with commit index 3, and `commit_ = min(m.commit, last_index())`
makes node 1 emit its own entry. -/
theorem emitted_entries_differ : ∃ s os,
    (boot (eagerConfig 1)).run threeNodes
      [.tick 1, .deliver 0, .deliver 2, .deliver 3, .deliver 4, .propose 1 [97], .tick 2,
        .deliver 10, .deliver 11, .deliver 13, .deliver 14, .tick 3, .deliver 16, .deliver 17,
        .deliver 18, .deliver 19, .deliver 21, .deliver 20, .deliver 22] = some (s, os) ∧
    ∃ o₁ ∈ os, ∃ o₂ ∈ os, ∃ x ∈ o₁.ready.committed, ∃ y ∈ o₂.ready.committed,
      x.index = y.index ∧ x.term ≠ y.term ∧ x.command ≠ y.command := by
  rw [← Prod.exists']
  decide +kernel

end Flotilla.Raft
