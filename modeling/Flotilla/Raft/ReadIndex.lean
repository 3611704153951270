/-
  Raft.ReadIndex — a confirmed read sees every earlier commit.

  Fix an index that some leader has committed, with the majority that
  acknowledged it (`CommitTrack`).  A read registered later either carries a
  read index that covers it, or it was registered by a deposed leader: then
  every node of the majority had already left the leader's term, so no round
  from this read on is ever echoed by it (`Waits`), and no echo quorum confirms
  the read.
-/
import Flotilla.Raft.Heartbeats

namespace Flotilla.Raft

open Cluster
open ReplicatedLog

/-! ## Rounds along runs. -/

/-- Rounds and echoes under the leaders `ldr` of the terms. -/
def beatInvariant (M : Membership) : LocalInvariant ((Nat → NodeId) × Beats) where
  Moves p g g' := (∀ t, g.1 t ≠ 0 → g'.1 t = g.1 t) ∧ (∀ t, g.2.seq t ≤ g'.2.seq t) ∧
    (∀ t q, g.2.echo t q ≤ g'.2.echo t q) ∧ ∀ t, g'.2.seq t = g.2.seq t ∨ g'.1 t = p
  Global g := g.2.Bounded
  NodeOk g p _ r := p ∈ M.peers ∧ (r.role = .leader → g.1 r.hard.term = p) ∧ BeatNode M g.2 p r
  MsgOk g m := BeatMsg g.2 m
  node_frame := by
    intro p q g g' d r hmoves hq h
    obtain ⟨hkeep, hseq, hecho, hother⟩ := hmoves
    obtain ⟨hmem, hldr, hnode⟩ := h
    have hldr' : r.role = .leader → g'.1 r.hard.term = q := fun hl => by
      rw [hkeep _ (by rw [hldr hl]; exact Membership.ne_zero hmem)]
      exact hldr hl
    refine ⟨hmem, hldr', hnode.valid, fun hl => ?_, fun hl a ha => ?_, hnode.idle,
      fun m hm => (hnode.msgs m hm).mono hseq hecho⟩
    · -- only the leader of a term counts its rounds
      rcases hother r.hard.term with heq | hp
      · rw [heq]
        exact hnode.round hl
      · exact absurd ((hldr' hl).symm.trans hp) hq
    · exact ⟨(hnode.acked hl a ha).1, (hnode.acked hl a ha).2.trans (hecho _ _)⟩
  msg_frame hmoves h := h.mono hmoves.2.1 hmoves.2.2.1
  drained h := ⟨h.1, h.2.1, { h.2.2 with msgs := List.forall_mem_nil _ }⟩
  pending h m hm := h.2.2.msgs m hm

theorem beat_ballot {M : Membership} {ldr ldr' : Nat → NodeId} {β : Beats} {s : Cluster}
    (hkeep : ∀ t, ldr t ≠ 0 → ldr' t = ldr t) (h : (beatInvariant M).Holds M (ldr, β) s) :
    (beatInvariant M).Holds M (ldr', β) s :=
  { h with
    node := fun p hp => by
      obtain ⟨hmem, hldr, hnode⟩ := h.node p hp
      refine ⟨hmem, fun hl => ?_, hnode⟩
      have hl' : ldr (s.nodes p).raft.hard.term = p := hldr hl
      show ldr' (s.nodes p).raft.hard.term = p
      rw [hkeep _ (by rw [hl']; exact Membership.ne_zero hmem)]
      exact hl' }

/-- The invariant of uncompacted runs with their heartbeat rounds. -/
structure ReadState (M : Membership) (B : Ballot) (γ : Ghost) (β : Beats) (s : Cluster) :
    Prop where
  raft : (raftInvariant .uncompacted M).Holds M (B, γ) s
  beat : (beatInvariant M).Holds M (B.ldr, β) s
  begun : ∀ t, β.seq t ≠ 0 → γ.hist.led t

/-- What one event does to echoes, reads and the commit indices of leaders. -/
structure ReadFacts (M : Membership) (β β' : Beats) (γ' : Ghost) (s s' : Cluster) (o : Output) :
    Prop where
  echo : ∀ t q, β'.echo t q = β.echo t q ∨ t = γ'.hist.term q
  pending : ∀ n ∈ M.peers, ∀ pr ∈ (s'.nodes n).raft.pendingReads,
    (s'.nodes n).raft.hard.term = (s.nodes n).raft.hard.term ∧
      (pr ∈ (s.nodes n).raft.pendingReads ∨ ((s.nodes n).raft.Serves ∧
        pr.readIndex = (s.nodes n).raft.commit ∧ β.seq (s.nodes n).raft.hard.term < pr.hbSeq))
  confirmed : ∀ x ∈ o.ready.confirmedReads,
    (∃ pr ∈ (s.nodes o.node).raft.pendingReads, x = (pr.ctx, pr.readIndex) ∧
      ∃ Q, Majority M.members Q ∧
        ∀ q ∈ Q, q = o.node ∨ pr.hbSeq ≤ β'.echo (s.nodes o.node).raft.hard.term q) ∨
    ((s.nodes o.node).raft.Serves ∧ x.2 = (s.nodes o.node).raft.commit ∧
      Majority M.members {o.node})
  lead : ∀ n ∈ M.peers, (s.nodes n).raft.role = .leader → (s'.nodes n).raft.role = .leader →
    (s'.nodes n).raft.hard.term = (s.nodes n).raft.hard.term ∧
      (s.nodes n).raft.commit ≤ (s'.nodes n).raft.commit

section

variable {M : Membership} {B B' : Ballot} {γ γ' : Ghost} {β : Beats} {s s' : Cluster} {e : Event}
  {o : Output}

theorem ReadState.noself (h : ReadState M B γ β s) {m : Message} (hm : m ∈ s.net)
    (hto : m.to_ ∈ M.peers) (hl : (s.nodes m.to_).raft.role = .leader)
    (hterm : m.term = (s.nodes m.to_).raft.hard.term) :
    m.kind ≠ .appendEntries ∧ m.kind ≠ .installSnapshot := by
  have hmsg := (h.raft.msg m hm).2
  have hldr := ((h.raft.node m.to_ hto).2.lead hl).is_ldr
  refine ⟨fun hkind => ?_, fun hkind => ?_⟩
  · have hfrom := (hmsg.append hkind).from_ldr
    rw [hterm] at hfrom
    exact hmsg.from_ne (hfrom.symm.trans hldr)
  · exact absurd (hmsg.snapshot hkind).guarded (by simp)

theorem ReadState.acts (h : ReadState M B γ β s) {n : NodeId} (hn : n ∈ M.peers) {r : Core}
    (hact : s.Acts e n r)
    (hcrown : r.role = .leader → (s.nodes n).raft.role ≠ .leader → ¬ γ.hist.led r.hard.term) :
    BeatOk M β n (s.nodes n).raft r := by
  obtain ⟨_, _, hnode⟩ := h.beat.node n hn
  have hβ : β.Bounded := h.beat.global
  have hnone : (s.nodes n).raft.ready.confirmedReads = [] := by rw [h.beat.rest n hn]
  have hfresh : r.role = .leader → (s.nodes n).raft.role ≠ .leader → β.seq r.hard.term = 0 := by
    intro hl hnl
    by_contra hne
    exact hcrown hl hnl (h.begun _ hne)
  cases hact with
  | tick => exact hnode.tick hβ hnone hfresh
  | deliver k m hm =>
    have hin := mem_of_getElem? hm
    exact hnode.step hβ hn (h.beat.msg m hin) (h.raft.msg m hin).2.from_mem
      (h.noself hin hn) hnone hfresh
  | propose _ command r hr => exact .of_same hnode hβ (Core.sameReads_propose hr) hnone
  | readIndex _ ctx r _ hr => exact hnode.startReadIndex hβ hn hnone hr

/-- One event keeps the invariant of reads, and says what it did to them. -/
theorem ReadState.step (h : ReadState M B γ β s) (hplain : ¬ e.Compacts)
    (hstep : s.step M e = some (s', o)) :
    ∃ B' γ' β', ReadState M B' γ' β' s' ∧ γ.hist.Extends γ'.hist ∧
      StepFacts .uncompacted M γ γ' s s' e o ∧ ReadFacts M β β' γ' s s' o := by
  obtain ⟨B', γ', hkeep, hext, hraft', hfacts⟩ := raft_step h.raft hplain hstep
  obtain ⟨n, hn, hdid⟩ := step_cases hstep
  obtain ⟨hmem, hldr, hnode⟩ := h.beat.node n hn
  cases hdid with
  | op r hact =>
    have hself := drain_nodes_self s n r
    have hother : ∀ q, q ≠ n → (s.drain n r).1.nodes q = s.nodes q := fun q hq =>
      drain_nodes_of_ne s r hq
    have hcrown := hfacts.crowned n hn
    obtain ⟨hvote', hlog'⟩ := hraft'.node n hn
    rw [hself] at hcrown hvote' hlog'
    have hlead' : r.role = .leader → B'.ldr r.hard.term = n := hvote'.lead
    have hled' : r.role = .leader → γ'.hist.led r.hard.term := fun hl => (hlog'.lead hl).led
    have hterm' : γ'.hist.term n = r.hard.term := hlog'.term
    obtain ⟨β', hmoves, hβ', hnode', hreads⟩ := h.acts hn hact hcrown
    refine ⟨B', γ', β', ⟨hraft', ?_, ?_⟩, hext, hfacts, ?_⟩
    · refine h.beat.drain ⟨hkeep, hmoves.seq_le, hmoves.echo_le, fun t => ?_⟩ hβ'
        ⟨hmem, hlead', hnode'⟩
      rcases hmoves.seq_other t with heq | ⟨hl, rfl⟩
      · exact .inl heq
      · exact .inr (hlead' hl)
    · intro t ht
      rcases hmoves.seq_other t with heq | ⟨hl, rfl⟩
      · rw [heq] at ht
        exact hext.led t (h.begun t ht)
      · exact hled' hl
    · refine ⟨fun t q => ?_, fun q _ pr hpr => ?_, hreads.confirmed, fun q _ hl hl' => ?_⟩
      · rcases hmoves.echo_other t q with heq | ⟨rfl, rfl⟩
        · exact .inl heq
        · exact .inr hterm'.symm
      · by_cases hq : q = n
        · subst hq
          rw [hself] at hpr ⊢
          exact hreads.pending pr hpr
        · rw [hother q hq] at hpr ⊢
          exact ⟨rfl, .inl hpr⟩
      · by_cases hq : q = n
        · subst hq
          rw [hself] at hl' ⊢
          exact hreads.lead hl hl'
        · rw [hother q hq]
          exact ⟨rfl, le_rfl⟩
  | compact applied data saved he _ =>
    rw [he] at hplain
    exact absurd trivial hplain
  | restart cfg he hcfg =>
    -- a new incarnation follows, with no read pending
    have hself := setNode_nodes_self s n (restartNode (s.nodes n) cfg)
    have hother : ∀ q, q ≠ n → (s.setNode n (restartNode (s.nodes n) cfg)).nodes q =
        s.nodes q := fun q hq => setNode_nodes_of_ne s _ hq
    have hnl : (restartNode (s.nodes n) cfg).raft.role ≠ .leader := by
      simp [restartNode, Core.start, Core.resetElectionTimer]
    have hidle : (restartNode (s.nodes n) cfg).raft.pendingReads = [] := rfl
    refine ⟨B', γ', β, ⟨hraft', ?_, fun t ht => hext.led t (h.begun t ht)⟩, hext, hfacts, ?_⟩
    · refine beat_ballot hkeep (h.beat.setNode rfl ?_)
      exact ⟨hmem, fun hl => absurd hl hnl,
        .of_not_leader hcfg hnl hidle (List.forall_mem_nil _)⟩
    · refine ⟨fun t q => .inl rfl, fun q _ pr hpr => ?_,
        List.forall_mem_nil _, fun q _ hl hl' => ?_⟩
      · by_cases hq : q = n
        · rw [hq, hself, hidle] at hpr
          cases hpr
        · rw [hother q hq] at hpr ⊢
          exact ⟨rfl, .inl hpr⟩
      · by_cases hq : q = n
        · rw [hq, hself] at hl'
          exact absurd hl' hnl
        · rw [hother q hq]
          exact ⟨rfl, le_rfl⟩

theorem ReadState.boot {cfg : NodeId → Config} (hcfg : ∀ n ∈ M.peers, (cfg n).Valid M n) :
    ReadState M {} Ghost.empty ⟨fun _ => 0, fun _ _ => 0⟩ (boot cfg) where
  raft := raft_boot .uncompacted hcfg
  beat :=
    { global := fun _ _ => le_rfl
      node := fun p hp => by
        have hnl : ((Raft.boot cfg).nodes p).raft.role ≠ .leader := by
          simp [Raft.boot, Core.start, Core.resetElectionTimer]
        exact ⟨hp, fun hl => absurd hl hnl,
          .of_not_leader (hcfg p hp) hnl rfl (List.forall_mem_nil _)⟩
      rest := fun _ _ => rfl
      msg := List.forall_mem_nil _ }
  begun t ht := absurd rfl ht

theorem ReadState.run_keeps {P : Ghost → Cluster → Prop}
    (hkeeps : ∀ {B γ β s γ' β' s' e o}, ReadState M B γ β s → P γ s →
      γ.hist.Extends γ'.hist → StepFacts .uncompacted M γ γ' s s' e o →
      ReadFacts M β β' γ' s s' o → P γ' s')
    {es : List Event} {os : List Output} (h : ReadState M B γ β s) (hP : P γ s)
    (hplain : ∀ x ∈ es, ¬ x.Compacts) (hrun : s.run M es = some (s', os)) :
    ∃ B' γ' β', ReadState M B' γ' β' s' ∧ P γ' s' := by
  induction es generalizing s B γ β os with
  | nil =>
    cases hrun
    exact ⟨B, γ, β, h, hP⟩
  | cons e es ih =>
    obtain ⟨s₁, o, os', hstep, hrest, rfl⟩ := Cluster.run_cons hrun
    obtain ⟨B₁, γ₁, β₁, h₁, hext, hfacts, hreads⟩ := h.step (hplain e mem_cons_self) hstep
    exact ih h₁ (hkeeps h hP hext hfacts hreads) (fun x hx => hplain x (mem_cons_of_mem e hx)) hrest

/-! ## One committed index. -/

/-- Index `n` was committed in term `T`, acknowledged by the majority `Q`. -/
structure CommitTrack (M : Membership) (γ : Ghost) (s : Cluster) (T n : Nat) (Q : Finset NodeId) :
    Prop where
  majority : Majority M.members Q
  acks : ∀ q ∈ Q, n ≤ γ.hist.ack T q
  committed : Committed LogEntry.term M.members γ.hist T n
  kept : ∀ p ∈ M.peers, (s.nodes p).raft.role = .leader → (s.nodes p).raft.hard.term = T →
    n ≤ (s.nodes p).raft.commit

/-- The read `ctx` of node `l` covers `n`, or waits for echoes that never come. -/
def Waits (β : Beats) (s : Cluster) (l : NodeId) (ctx T n : Nat) (Q : Finset NodeId) : Prop :=
  ∀ pr ∈ (s.nodes l).raft.pendingReads, pr.ctx = ctx →
    n ≤ pr.readIndex ∨ ((s.nodes l).raft.hard.term < T ∧
      ∀ q ∈ Q, β.echo (s.nodes l).raft.hard.term q < pr.hbSeq)

variable {T n : Nat} {Q : Finset NodeId} {l p : NodeId} {ctx : Nat}

section

variable (h : ReadState M B γ β s) (ht : CommitTrack M γ s T n Q)

include h ht

theorem CommitTrack.term_le {q : NodeId} (hq : q ∈ Q) : T ≤ γ.hist.term q := by
  have hpos : 0 < γ.hist.ack T q := lt_of_lt_of_le ht.committed.1 (ht.acks q hq)
  exact (h.raft.global.2.sound.ack_led T q hpos).2

theorem CommitTrack.served (hp : p ∈ M.peers) (hserves : (s.nodes p).raft.Serves)
    (hle : T ≤ (s.nodes p).raft.hard.term) : n ≤ (s.nodes p).raft.commit := by
  obtain ⟨hl, hown⟩ := hserves
  rcases Nat.eq_or_lt_of_le hle with heq | hlt
  · exact ht.kept p hp hl heq.symm
  -- a later leader: its own-term commit index lies beyond the log it was elected with
  have hlog := (h.raft.node p hp).2
  have hlead := hlog.lead hl
  have hsound := h.raft.global.2.sound
  have hbase : (s.nodes p).raft.base.lastIndex = 0 := hlog.plain rfl
  have hin : (s.nodes p).raft.commit ≤ (γ.hist.log p).length := by
    by_contra hout
    have hlast := hlog.window.lastIndex_eq
    replace hlast : (s.nodes p).raft.lastIndex = (γ.hist.log p).length := hlast
    unfold Core.termAt at hown
    rw [if_neg (by omega), if_neg (by omega)] at hown
    omega
  rw [hlog.window.termAt_eq (by omega) hin] at hown
  obtain ⟨k, hk⟩ : ∃ k, (s.nodes p).raft.commit = k + 1 := by
    refine ⟨(s.nodes p).raft.commit - 1, ?_⟩
    by_contra hzero
    have hz : (s.nodes p).raft.commit = 0 := by omega
    rw [hz] at hown
    have : (0 : Nat) = (s.nodes p).raft.hard.term := hown
    omega
  obtain ⟨x, hx⟩ : ∃ x, (γ.hist.log p)[k]? = some x := ⟨_, getElem?_eq_getElem (by omega)⟩
  have hx' : (γ.hist.llog (s.nodes p).raft.hard.term)[k]? = some x := by
    rw [← hlead.log_eq]
    exact hx
  have hxterm : x.term = (s.nodes p).raft.hard.term := by
    rw [← hown, hk]
    exact (termOf_succ_of_getElem? LogEntry.term hx).symm
  have hbeyond := hsound.ilog_length_le hlead.led hx' hxterm
  have hpre := (hsound.leader_completeness ht.committed hlt hlead.led).length_le
  rw [length_take, Nat.min_eq_left (ht.committed.le_length hsound)] at hpre
  omega

/-- The majority that has acknowledged `n` stays behind it. -/
theorem CommitTrack.step {β' : Beats} (hext : γ.hist.Extends γ'.hist)
    (hfacts : StepFacts .uncompacted M γ γ' s s' e o) (hreads : ReadFacts M β β' γ' s s' o) :
    CommitTrack M γ' s' T n Q where
  majority := ht.majority
  acks q hq := (ht.acks q hq).trans (hext.ack T q)
  committed := ht.committed.mono h.raft.global.2.sound hext
  kept p hp hl hterm := by
    by_cases hold : (s.nodes p).raft.role = .leader
    · obtain ⟨hsame, hle⟩ := hreads.lead p hp hold hl
      exact (ht.kept p hp hold (hsame.symm.trans hterm)).trans hle
    · -- the term of the commit already has its leader
      have hopen := hfacts.crowned p hp hl hold
      rw [hterm] at hopen
      exact absurd ht.committed.2.2.1 hopen

end

theorem CommitTrack.echo_eq (ht : CommitTrack M γ' s' T n Q) (h' : ReadState M B' γ' β s')
    {β₀ β₁ : Beats} (hecho : ∀ t q, β₁.echo t q = β₀.echo t q ∨ t = γ'.hist.term q) {t : Nat}
    (hlt : t < T) {q : NodeId} (hq : q ∈ Q) : β₁.echo t q = β₀.echo t q := by
  rcases hecho t q with heq | heq
  · exact heq
  · have := ht.term_le h' hq
    omega

theorem Waits.step (h : ReadState M B γ β s) (ht : CommitTrack M γ s T n Q) (hl : l ∈ M.peers)
    {β' : Beats} (h' : ReadState M B' γ' β' s') (ht' : CommitTrack M γ' s' T n Q)
    (hreads : ReadFacts M β β' γ' s s' o) (hw : Waits β s l ctx T n Q) :
    Waits β' s' l ctx T n Q := by
  intro pr hpr hctx
  obtain ⟨hterm, hfrom⟩ := hreads.pending l hl pr hpr
  rw [hterm]
  rcases hfrom with hpr | ⟨hserves, hindex, hround⟩
  · rcases hw pr hpr hctx with hcovers | ⟨hlt, hecho⟩
    · exact .inl hcovers
    · refine .inr ⟨hlt, fun q hq => ?_⟩
      rw [ht'.echo_eq h' hreads.echo hlt hq]
      exact hecho q hq
  · by_cases hle : T ≤ (s.nodes l).raft.hard.term
    · rw [hindex]
      exact .inl (ht.served h hl hserves hle)
    · -- a deposed leader: its new round has not been echoed yet
      have hlt : (s.nodes l).raft.hard.term < T := by omega
      refine .inr ⟨hlt, fun q hq => ?_⟩
      rw [ht'.echo_eq h' hreads.echo hlt hq]
      have hbound : β.echo (s.nodes l).raft.hard.term q ≤ β.seq (s.nodes l).raft.hard.term :=
        h.beat.global _ _
      omega

theorem Waits.confirmed (h : ReadState M B γ β s) (ht : CommitTrack M γ s T n Q)
    (ho : o.node ∈ M.peers) {β' : Beats} (h' : ReadState M B' γ' β' s')
    (ht' : CommitTrack M γ' s' T n Q) (hreads : ReadFacts M β β' γ' s s' o)
    (hw : Waits β s o.node ctx T n Q) {r : Nat} (hr : (ctx, r) ∈ o.ready.confirmedReads) :
    n ≤ r := by
  have hself : o.node ∈ Q → T ≤ (s.nodes o.node).raft.hard.term := by
    intro hin
    have hle := ht.term_le h hin
    have hterm := (h.raft.node o.node ho).2.term
    replace hterm : γ.hist.term o.node = (s.nodes o.node).raft.hard.term := hterm
    omega
  rcases hreads.confirmed _ hr with ⟨pr, hpr, heq, Q', hQ', hechoed⟩ | ⟨hserves, hindex, hQ'⟩
  · obtain ⟨hctx, hr⟩ := Prod.mk.inj heq
    rw [hr]
    rcases hw pr hpr hctx.symm with hcovers | ⟨hlt, hecho⟩
    · exact hcovers
    · obtain ⟨q, hq, hq'⟩ := ht.majority.exists_common hQ'
      rcases hechoed q hq' with rfl | hround
      · have := hself hq
        omega
      · rw [ht'.echo_eq h' hreads.echo hlt hq] at hround
        have := hecho q hq
        omega
  · replace hindex : r = (s.nodes o.node).raft.commit := hindex
    rw [hindex]
    refine ht.served h ho hserves ?_
    obtain ⟨q, hq, hq'⟩ := ht.majority.exists_common hQ'
    rw [Finset.mem_singleton.mp hq'] at hq
    exact hself hq

/-! ## Runs. -/

/-- However long the read waits, it is confirmed with `n` or more. -/
theorem Waits.run {es : List Event} {os : List Output} (h : ReadState M B γ β s)
    (ht : CommitTrack M γ s T n Q) (hl : l ∈ M.peers) (hw : Waits β s l ctx T n Q)
    (hplain : ∀ x ∈ es, ¬ x.Compacts) (hrun : s.run M es = some (s', os)) :
    ∀ o ∈ os, o.node = l → ∀ r, (ctx, r) ∈ o.ready.confirmedReads → n ≤ r := by
  induction es generalizing s B γ β os with
  | nil =>
    obtain ⟨_, rfl⟩ := hrun
    exact nofun
  | cons e es ih =>
    obtain ⟨s₁, o, os', hstep, hrest, rfl⟩ := Cluster.run_cons hrun
    obtain ⟨B₁, γ₁, β₁, h₁, hext, hfacts, hreads⟩ := h.step (hplain e mem_cons_self) hstep
    have ht₁ := ht.step h hext hfacts hreads
    intro o' ho' hnode r hr
    rcases mem_cons.mp ho' with rfl | ho'
    · subst hnode
      exact hw.confirmed h ht hl h₁ ht₁ hreads hr
    · exact ih h₁ ht₁ (hw.step h ht hl h₁ ht₁ hreads)
        (fun x hx => hplain x (mem_cons_of_mem e hx)) hrest o' ho' hnode r hr

theorem CommitTrack.of_raised (h' : ReadState M B' γ' β s')
    (hfacts : StepFacts .uncompacted M γ γ' s s' e o) (hp : p ∈ M.peers)
    (hlead : (s'.nodes p).raft.role = .leader)
    (hraised : (s'.nodes p).raft.commit ≠ (s.nodes p).raft.commit) :
    ∃ Q, CommitTrack M γ' s' (s'.nodes p).raft.hard.term (s'.nodes p).raft.commit Q := by
  have hcom := hfacts.raised p hp hlead hraised
  obtain ⟨Q, hQ, hacks⟩ := hcom.2.2.2
  refine ⟨Q, hQ, hacks, hcom, fun q hq hl hterm => ?_⟩
  -- one leader per term
  have hp' : B'.ldr (s'.nodes p).raft.hard.term = p := (h'.raft.node p hp).1.lead hlead
  have hq' : B'.ldr (s'.nodes q).raft.hard.term = q := (h'.raft.node q hq).1.lead hl
  rw [hterm, hp'] at hq'
  rw [hq']

end

/-- **ReadIndex is linearizable**: let a step leave `p` leader with a raised commit
index, and let `l` accept the read `ctx` at some later point.  Whatever index `l`
confirms for `ctx` from then on is at least that commit index. -/
theorem read_index_linearizable {M : Membership} {cfg : NodeId → Config}
    (hcfg : ∀ n ∈ M.peers, (cfg n).Valid M n) {es₁ es₂ es₃ : List Event} {e : Event}
    {s₁ s₂ s₃ s₄ s₅ : Cluster} {os₁ os₂ os₃ : List Output} {o o' : Output} {p l : NodeId}
    {ctx : Nat} (hrun₁ : (boot cfg).run M es₁ = some (s₁, os₁))
    (hstep : s₁.step M e = some (s₂, o)) (hrun₂ : s₂.run M es₂ = some (s₃, os₂))
    (hread : s₃.step M (.readIndex l ctx) = some (s₄, o'))
    (hrun₃ : s₄.run M es₃ = some (s₅, os₃))
    (hplain : ∀ x ∈ es₁ ++ e :: (es₂ ++ es₃), ¬ x.Compacts) (hp : p ∈ M.peers)
    (hlead : (s₂.nodes p).raft.role = .leader)
    (hraised : (s₂.nodes p).raft.commit ≠ (s₁.nodes p).raft.commit) :
    ∀ w ∈ o' :: os₃, w.node = l → ∀ r, (ctx, r) ∈ w.ready.confirmedReads →
      (s₂.nodes p).raft.commit ≤ r := by
  have hplain₁ : ∀ x ∈ es₁, ¬ x.Compacts := fun x hx => hplain x (mem_append_left _ hx)
  have hplaine : ¬ e.Compacts := hplain e (mem_append_right _ mem_cons_self)
  have hplain₂ : ∀ x ∈ es₂, ¬ x.Compacts := fun x hx => hplain x
    (mem_append_right _ (mem_cons_of_mem _ (mem_append_left _ hx)))
  have hplain₃ : ∀ x ∈ es₃, ¬ x.Compacts := fun x hx => hplain x
    (mem_append_right _ (mem_cons_of_mem _ (mem_append_right _ hx)))
  obtain ⟨B₁, γ₁, β₁, h₁, _⟩ := ReadState.run_keeps (P := fun _ _ => True)
    (fun _ _ _ _ _ => trivial) (.boot hcfg) trivial hplain₁ hrun₁
  obtain ⟨B₂, γ₂, β₂, h₂, _, hfacts₂, _⟩ := h₁.step hplaine hstep
  obtain ⟨Q, ht₂⟩ := CommitTrack.of_raised h₂ hfacts₂ hp hlead hraised
  obtain ⟨B₃, γ₃, β₃, h₃, ht₃⟩ := ReadState.run_keeps (P := fun γ s => CommitTrack M γ s _ _ Q)
    (fun h ht => ht.step h) h₂ ht₂ hplain₂ hrun₂
  have hplainr : ¬ (Event.readIndex l ctx).Compacts := fun hc => hc
  obtain ⟨B₄, γ₄, β₄, h₄, hext₄, hfacts₄, hreads₄⟩ := h₃.step hplainr hread
  have ht₄ := ht₃.step h₃ hext₄ hfacts₄ hreads₄
  -- `ctx` is new, so no read of this name is pending yet
  obtain ⟨hl, hnew⟩ : l ∈ M.peers ∧ ctx ∉ (s₃.nodes l).raft.pendingReads.map PendingRead.ctx := by
    simp only [Cluster.step] at hread
    split at hread
    · assumption
    · cases hread
  have hw₃ : Waits β₃ s₃ l ctx (s₂.nodes p).raft.hard.term (s₂.nodes p).raft.commit Q :=
    fun pr hpr hctx => absurd (mem_map.mpr ⟨pr, hpr, hctx⟩) hnew
  intro w hw hnode r hr
  rcases mem_cons.mp hw with rfl | hw
  · subst hnode
    exact hw₃.confirmed h₃ ht₃ hl h₄ ht₄ hreads₄ hr
  · exact (hw₃.step h₃ ht₃ hl h₄ ht₄ hreads₄).run h₄ ht₄ hl hplain₃ hrun₃ w hw hnode r hr

/-- Node 1 commits its no-op, accepts read 7 and has it confirmed by node 2's echo. -/
theorem read_index_linearizable_noop : ∃ s₁ os₁ s₂ o s₄ o' s₅ os₃,
    (boot (eagerConfig 128)).run threeNodes replicateNoop = some (s₁, os₁) ∧
    s₁.step threeNodes (.deliver 5) = some (s₂, o) ∧
    s₂.step threeNodes (.readIndex 1 7) = some (s₄, o') ∧
    s₄.run threeNodes [.deliver 6, .deliver 8] = some (s₅, os₃) ∧
    (∃ w ∈ os₃, w.node = 1 ∧ (7, 1) ∈ w.ready.confirmedReads) ∧
    ∀ w ∈ o' :: os₃, w.node = 1 → ∀ r, (7, r) ∈ w.ready.confirmedReads →
      (s₂.nodes 1).raft.commit ≤ r := by
  obtain ⟨⟨s₁, os₁⟩, hrun₁, ⟨s₂, o⟩, hstep, hlead, hraised, ⟨s₄, o'⟩, hread, ⟨s₅, os₃⟩, hrun₃,
      hconfirmed⟩ : ∃ x, (boot (eagerConfig 128)).run threeNodes replicateNoop = some x ∧
    ∃ y, x.1.step threeNodes (.deliver 5) = some y ∧ (y.1.nodes 1).raft.role = .leader ∧
      (y.1.nodes 1).raft.commit ≠ (x.1.nodes 1).raft.commit ∧
      ∃ z, y.1.step threeNodes (.readIndex 1 7) = some z ∧
        ∃ w, z.1.run threeNodes [.deliver 6, .deliver 8] = some w ∧
          w.2.any (fun u => u.node = 1 ∧ (7, 1) ∈ u.ready.confirmedReads) = true := by
    decide +kernel
  replace hconfirmed : ∃ u ∈ os₃, u.node = 1 ∧ (7, 1) ∈ u.ready.confirmedReads := by
    simpa using hconfirmed
  refine ⟨s₁, os₁, s₂, o, s₄, o', s₅, os₃, hrun₁, hstep, hread, hrun₃, hconfirmed, ?_⟩
  have hnow : s₂.run threeNodes [] = some (s₂, []) := rfl
  exact read_index_linearizable (fun n _ => eagerConfig_valid 128 n) hrun₁ hstep hnow hread hrun₃
    (by decide) (by decide) hlead hraised

end Flotilla.Raft
