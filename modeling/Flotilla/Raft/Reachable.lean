/-
  Raft.Reachable — the invariant of every reachable state.

  The election invariant and the log invariant form one local invariant over a
  ballot and a ghost history (`raftInvariant`).  An event of an allowed run
  keeps it (`raft_step`), and so does a run (`raft_run`); on the way the steps
  report what the safety theorems need (`StepFacts`).
-/
import Flotilla.Raft.Simulation

namespace Flotilla.Raft

open Cluster
open ReplicatedLog

/-! ## Who becomes leader. -/

namespace Core

variable {m : Message} {r : Core}

theorem handleAppendEntries_leader (h : (r.handleAppendEntries m).role = .leader) :
    r.role = .leader := by
  rw [handleAppendEntries_heard] at h
  apply (r.heard_frame m).2.2.1
  generalize r.heard m = c at h ⊢
  split at h
  · split at h
    · exact h
    · rw [(sameElection_acceptEntries c m _ _ _ _ (by simp)).role] at h
      exact h
  · rw [(sameElection_acceptEntries c m _ _ _ _ (by simp)).role] at h
    exact h

theorem handleInstallSnapshot_leader (h : (r.handleInstallSnapshot m).role = .leader) :
    r.role = .leader := by
  rw [handleInstallSnapshot_heard] at h
  apply (r.heard_frame m).2.2.1
  split at h <;> exact h

theorem handleRequestVote_frame (r : Core) (m : Message) :
    (r.handleRequestVote m).role = r.role ∧ (r.handleRequestVote m).lastIndex = r.lastIndex ∧
      (r.handleRequestVote m).hard.term = r.hard.term := by
  unfold handleRequestVote
  dsimp only
  split
  · split <;> exact ⟨rfl, rfl, rfl⟩
  · exact ⟨rfl, rfl, rfl⟩

/-- What `Step` does once the node is in the term of the message. -/
def handle (r : Core) (m : Message) : Core :=
  match m.kind with
  | .requestVote => r.handleRequestVote m
  | .requestVoteResp => r.handleRequestVoteResp m
  | .appendEntries => r.handleAppendEntries m
  | .appendEntriesResp => r.handleAppendEntriesResp m
  | .installSnapshot => r.handleInstallSnapshot m
  | .installSnapshotResp => r.handleInstallSnapshotResp m

theorem handle_leader (h : (r.handle m).role = .leader) :
    r.role = .leader ∨ (r.role = .candidate ∧ (r.handle m).hard.term = r.hard.term) := by
  unfold handle at h ⊢
  generalize m.kind = kind at h ⊢
  cases kind with
  | requestVote =>
    exact .inl ((r.handleRequestVote_frame m).1.symm.trans h)
  | requestVoteResp =>
    dsimp only at h ⊢
    unfold handleRequestVoteResp at h ⊢
    by_cases hcand : r.role = .candidate
    · refine .inr ⟨hcand, ?_⟩
      rw [if_neg (fun hne => hne hcand)]
      dsimp only
      split
      · rw [becomeLeader_hard]
      · rfl
    · rw [if_pos hcand] at h
      exact .inl h
  | appendEntries =>
    exact .inl (handleAppendEntries_leader h)
  | appendEntriesResp =>
    exact .inl ((sameElection_handleAppendEntriesResp r m).role.symm.trans h)
  | installSnapshot =>
    exact .inl (handleInstallSnapshot_leader h)
  | installSnapshotResp =>
    exact .inl ((sameElection_handleInstallSnapshotResp r m).role.symm.trans h)

theorem handle_follower (hrole : r.role = .follower) : (r.handle m).role ≠ .leader := by
  intro h
  rcases handle_leader h with hl | ⟨hl, _⟩ <;> cases hrole.symm.trans hl

theorem step_leader (h : (r.step m).role = .leader) :
    r.role = .leader ∨ (r.role = .candidate ∧ (r.step m).hard.term = r.hard.term) := by
  unfold step at h ⊢
  by_cases hstale : m.term < r.hard.term
  · rw [if_pos hstale] at h
    left
    split at h <;> exact h
  · rw [if_neg hstale] at h ⊢
    by_cases hlt : r.hard.term < m.term
    · -- a newer term leaves a follower
      rw [if_pos hlt] at h
      exact absurd h (handle_follower (r.becomeFollower_frame _ _).1)
    · rw [if_neg hlt] at h ⊢
      exact handle_leader h

theorem tick_leader (h : r.tick.role = .leader) :
    r.role = .leader ∨ r.tick.hard.term = r.hard.term + 1 := by
  unfold tick at h ⊢
  by_cases hl : r.role = .leader
  · exact .inl hl
  · rw [if_neg hl] at h ⊢
    dsimp only at h ⊢
    split at h
    · rename_i hdue
      right
      rw [if_pos hdue, startElection_eq]
      split
      · rw [becomeLeader_hard]
        rfl
      · rfl
    · exact absurd h hl

end Core

theorem Cluster.Acts.leader_from {s : Cluster} {e : Event} {n : NodeId} {r : Core}
    (hact : s.Acts e n r) (hl : r.role = .leader) :
    (s.nodes n).raft.role = .leader ∨
      ((s.nodes n).raft.role = .candidate ∧ r.hard.term = (s.nodes n).raft.hard.term) ∨
      (s.nodes n).raft.hard.term < r.hard.term := by
  cases hact with
  | tick =>
    rcases Core.tick_leader hl with h | h
    · exact .inl h
    · exact .inr (.inr (by omega))
  | deliver k m hm =>
    rcases Core.step_leader hl with h | h
    · exact .inl h
    · exact .inr (.inl h)
  | propose _ command r hr =>
    left
    rw [← (Core.sameElection_propose hr).role]
    exact hl
  | readIndex _ ctx r _ hr =>
    left
    rw [← (Core.sameElection_startReadIndex hr).role]
    exact hl

section

variable {ρ : Regime} {M : Membership} {B B' : Ballot} {γ γ' : Ghost} {p q : NodeId}
  {d : Storage} {r r' : Core} {m : Message}

variable {s : Cluster} {ldr ldr' : Nat → NodeId}

/-- A node that becomes leader does so in a term that had none. -/
theorem VoteNode.open_before {e : Event} (hv : VoteNode M B p (s.nodes p).storage (s.nodes p).raft)
    (hact : s.Acts e p r') (hmoves : B.Moves p B') (hv' : VoteNode M B' p d r')
    (hl : r'.role = .leader) (hnl : (s.nodes p).raft.role ≠ .leader) : B.ldr r'.hard.term = 0 := by
  by_contra hne
  have hold : B.ldr r'.hard.term = p := by
    rw [← hmoves.ldr_keep _ hne]
    exact hv'.lead hl
  obtain ⟨hle, hcand⟩ := hv.past _ hold
  rcases hact.leader_from hl with h | ⟨h, hterm⟩ | h
  · exact hnl h
  · exact hcand hterm h
  · omega

theorem VoteNode.wins {e : Event} (hv : VoteNode M B p (s.nodes p).storage (s.nodes p).raft)
    (hact : s.Acts e p r') (hmoves : B.Moves p B') (hv' : VoteNode M B' p d r')
    (hG : γ.Global M B.ldr) :
    Wins B'.ldr γ p (s.nodes p).raft r' :=
  ⟨hv'.lead, fun hl hnl hled =>
    hG.led_ldr _ hled (hv.open_before hact hmoves hv' hl hnl)⟩

/-! ## The combined invariant. -/

theorem LogMsg.ballot (hkeep : ∀ t, ldr t ≠ 0 → ldr' t = ldr t) (h : LogMsg ρ M ldr γ m) :
    LogMsg ρ M ldr' γ m := by
  have hfrom : ldr m.term = m.from_ → ldr' m.term = m.from_ := by
    intro heq
    rw [hkeep _ (by rw [heq]; exact Membership.ne_zero h.from_mem)]
    exact heq
  exact { h with
    append := fun hk => { h.append hk with from_ldr := hfrom (h.append hk).from_ldr }
    snapshot := fun hk => { h.snapshot hk with from_ldr := hfrom (h.snapshot hk).from_ldr } }

theorem LogNode.ballot (hkeep : ∀ t, ldr t ≠ 0 → ldr' t = ldr t) (h : LogNode ρ M ldr γ p d r) :
    LogNode ρ M ldr' γ p d r :=
  { h with
    lead := fun hl => { h.lead hl with
      is_ldr := by
        have heq := (h.lead hl).is_ldr
        rw [hkeep _ (by rw [heq]; exact Membership.ne_zero h.mem)]
        exact heq }
    msgs := fun m hm => (h.msgs m hm).ballot hkeep }

theorem Ghost.Global.ballot (hkeep : ∀ t, ldr t ≠ 0 → ldr' t = ldr t) (h : γ.Global M ldr) :
    γ.Global M ldr' :=
  { h with
    led_ldr := fun t ht => by
      rw [hkeep t (h.led_ldr t ht)]
      exact h.led_ldr t ht }

/-- The invariant of all runs: the ballot first, then the history under it. -/
def raftInvariant (ρ : Regime) (M : Membership) : LocalInvariant (Ballot × Ghost) where
  Moves p g g' := g.1.Moves p g'.1 ∧ g.2.Global M g'.1.ldr ∧ g.2.Moves g'.1.ldr p g'.2
  Global g := g.1.Won M ∧ g.2.Global M g.1.ldr
  NodeOk g p d r := VoteNode M g.1 p d r ∧ LogNode ρ M g.1.ldr g.2 p d r
  MsgOk g m := VoteMsg M g.1 m ∧ LogMsg ρ M g.1.ldr g.2 m
  node_frame hmoves hq h :=
    ⟨h.1.frame hmoves.1 hq, (h.2.ballot hmoves.1.ldr_keep).frame hmoves.2.1 hmoves.2.2 hq⟩
  msg_frame hmoves h :=
    ⟨h.1.mono hmoves.1, (h.2.ballot hmoves.1.ldr_keep).mono hmoves.2.1 hmoves.2.2⟩
  drained h := ⟨(electionInvariant M).drained h.1, h.2.drained⟩
  pending h m hm := ⟨h.1.msgs m hm, h.2.msgs m hm⟩

/-- The event is a call of `CompactTo`. -/
def Event.Compacts : Event → Prop
  | .compact _ _ _ _ => True
  | _ => False

instance : DecidablePred Event.Compacts
  | .compact _ _ _ _ => isTrue trivial
  | .tick _ => isFalse id
  | .deliver _ => isFalse id
  | .propose _ _ => isFalse id
  | .readIndex _ _ => isFalse id
  | .restart _ _ => isFalse id

/-- Every delivered message meets the conditions of `Followers`. -/
def Guarded (s : Cluster) : Event → Prop
  | .deliver k => ∀ m ∈ s.net[k]?, DeliveryGuard (s.nodes m.to_).raft m
  | _ => True

instance Guarded.decidable (s : Cluster) : DecidablePred (Guarded s)
  | .deliver k =>
      inferInstanceAs (Decidable (∀ m ∈ s.net[k]?, DeliveryGuard (s.nodes m.to_).raft m))
  | .tick _ => isTrue trivial
  | .propose _ _ => isTrue trivial
  | .readIndex _ _ => isTrue trivial
  | .compact _ _ _ _ => isTrue trivial
  | .restart _ _ => isTrue trivial

/-- What an event may find: no compaction in an uncompacted run, guarded
deliveries in a guarded one. -/
def Allowed (ρ : Regime) (s : Cluster) (e : Event) : Prop :=
  match ρ with
  | .uncompacted => ¬ e.Compacts
  | .guarded => Guarded s e

/-- What one event does to leaders, commit indices and emitted entries. -/
structure StepFacts (ρ : Regime) (M : Membership) (γ γ' : Ghost) (s s' : Cluster) (e : Event)
    (o : Output) : Prop where
  crowned : ∀ n ∈ M.peers, (s'.nodes n).raft.role = .leader → (s.nodes n).raft.role ≠ .leader →
    ¬ γ.hist.led (s'.nodes n).raft.hard.term
  raised : ∀ n ∈ M.peers, (s'.nodes n).raft.role = .leader →
    (s'.nodes n).raft.commit ≠ (s.nodes n).raft.commit →
    Committed LogEntry.term M.members γ'.hist (s'.nodes n).raft.hard.term (s'.nodes n).raft.commit
  emitted : ρ = .guarded → ∀ x ∈ o.ready.committed, Emittable M γ' x
  kept : ρ = .guarded → ∀ n ∈ M.peers, (∀ cfg, e ≠ .restart n cfg) →
    (s.nodes n).raft.commit ≤ (s'.nodes n).raft.commit
  cut : ρ = .guarded → o.ready.truncateFrom = 0 ∨
    (s.nodes o.node).raft.commit < o.ready.truncateFrom

theorem compactTo_frame (r : Core) (applied : Nat) (data : Bytes) :
    (r.compactTo applied data).role = r.role ∧ (r.compactTo applied data).commit = r.commit := by
  unfold Core.compactTo
  split <;> exact ⟨rfl, rfl⟩

/-! ## Steps and runs. -/

/-- What one event keeps: the invariant, the leaders so far, and the history, which only grows. -/
theorem raft_step {s' : Cluster} {e : Event} {o : Output} (h : (raftInvariant ρ M).Holds M (B, γ) s)
    (hallowed : Allowed ρ s e) (hstep : s.step M e = some (s', o)) :
    ∃ B' γ', (∀ t, B.ldr t ≠ 0 → B'.ldr t = B.ldr t) ∧ γ.hist.Extends γ'.hist ∧
      (raftInvariant ρ M).Holds M (B', γ') s' ∧ StepFacts ρ M γ γ' s s' e o := by
  obtain ⟨n, hn, hdid⟩ := step_cases hstep
  obtain ⟨hwon, hG⟩ : B.Won M ∧ γ.Global M B.ldr := h.global
  obtain ⟨hvote, hlog⟩ : VoteNode M B n (s.nodes n).storage (s.nodes n).raft ∧
      LogNode ρ M B.ldr γ n (s.nodes n).storage (s.nodes n).raft := h.node n hn
  have hrest := h.rest n hn
  have htf : (s.nodes n).raft.ready.truncateFrom = 0 := by rw [hrest]
  cases hdid with
  | op r hact =>
    -- first the ballot, then the history under the new ballot
    obtain ⟨B', hBmoves, hwon', hvote'⟩ := hvote.acts hwon (fun m hm => (h.msg m hm).1) hact
    have hkeep := hBmoves.ldr_keep
    have hwins := hvote.wins hact hBmoves hvote' hG
    have hG₁ := hG.ballot hkeep
    have hlog₁ := hlog.ballot hkeep
    have hok : LogOk ρ M B'.ldr γ n (s.nodes n).storage (s.nodes n).raft.commit r := by
      cases hact with
      | tick => exact hlog₁.tick hG₁ hwins htf
      | deliver k m hm =>
        have hmsg := (h.msg m (mem_of_getElem? hm)).2.ballot hkeep
        refine hlog₁.step hG₁ (fun hc v hv => (hvote.votes hc v hv).1) hmsg rfl hwins ?_ htf
        intro hρ
        subst hρ
        exact hallowed m hm
      | propose _ command r hr => exact hlog₁.propose hG₁ hr htf
      | readIndex _ ctx r _ hr => exact hlog₁.startReadIndex hG₁ hr htf
    obtain ⟨γ', hγmoves, hG', hlog', hraised, hkept⟩ := hok
    refine ⟨B', γ', hkeep, hγmoves.ext,
      h.drain ⟨hBmoves, hG₁, hγmoves⟩ ⟨hwon', hG'⟩ ⟨hvote', hlog'⟩, ?_⟩
    refine ⟨?_, ?_, hlog'.emitted, ?_, fun hρ => (hkept hρ).2⟩
    · intro q _ hl hnot
      by_cases hq : q = n
      · subst hq
        rw [drain_nodes_self] at hl ⊢
        exact hwins.fresh hl hnot
      · rw [drain_nodes_of_ne s r hq] at hl
        exact absurd hl hnot
    · intro q _ hl hne
      by_cases hq : q = n
      · subst hq
        rw [drain_nodes_self] at hl hne ⊢
        exact hraised hl hne
      · rw [drain_nodes_of_ne s r hq] at hne
        exact absurd rfl hne
    · intro hρ q _ _
      by_cases hq : q = n
      · subst hq
        rw [drain_nodes_self]
        exact (hkept hρ).1
      · rw [drain_nodes_of_ne s r hq]
  | compact applied data saved he hle =>
    have hρ : ρ = .guarded := by
      cases ρ with
      | uncompacted =>
        rw [he] at hallowed
        exact absurd trivial hallowed
      | guarded => rfl
    have hcommit : ∀ q, ((s.setNode n (compactNode (s.nodes n) applied data
        saved)).nodes q).raft.commit = (s.nodes q).raft.commit := by
      intro q
      by_cases hq : q = n
      · rw [hq, setNode_nodes_self]
        exact (compactTo_frame _ applied data).2
      · rw [setNode_nodes_of_ne _ _ hq]
    have hrole : ∀ q, ((s.setNode n (compactNode (s.nodes n) applied data
        saved)).nodes q).raft.role = (s.nodes q).raft.role := by
      intro q
      by_cases hq : q = n
      · rw [hq, setNode_nodes_self]
        exact (compactTo_frame _ applied data).1
      · rw [setNode_nodes_of_ne _ _ hq]
    refine ⟨B, γ, fun _ _ => rfl, .refl _, h.setNode ?_ ?_, ?_⟩
    · rw [compactNode_ready]
      exact hrest
    · exact ⟨hvote.compact applied data saved, hlog.compact hρ hrest hle data saved⟩
    · refine ⟨fun q _ hl hnot => absurd ((hrole q).symm.trans hl) hnot,
        fun q _ _ hne => absurd (hcommit q) hne, fun _ x hx => ?_, fun _ q _ _ => ?_,
        fun _ => .inl rfl⟩
      · cases hx
      · exact (hcommit q).ge
  | restart cfg he hcfg =>
    have hhard : (s.nodes n).storage.hard = (s.nodes n).raft.hard := by
      have := hvote.hard
      rw [hrest] at this
      exact this
    refine ⟨B, γ, fun _ _ => rfl, .refl _, h.setNode rfl ?_, ?_⟩
    · exact ⟨hvote.restart hrest hcfg, hlog.restart hrest hhard hcfg⟩
    · -- the new incarnation is a follower
      have hother : ∀ q, ((s.setNode n (restartNode (s.nodes n) cfg)).nodes q).raft.role =
          .leader → (s.setNode n (restartNode (s.nodes n) cfg)).nodes q = s.nodes q := by
        intro q hl
        by_cases hq : q = n
        · rw [hq, setNode_nodes_self] at hl
          exact absurd hl (by simp [restartNode, Core.start, Core.resetElectionTimer])
        · exact setNode_nodes_of_ne _ _ hq
      refine ⟨fun q _ hl hnot => ?_, fun q _ hl hne => ?_,
        fun _ x hx => absurd hx not_mem_nil, ?_, fun _ => .inl rfl⟩
      · exact absurd ((hother q hl) ▸ hl) hnot
      · exact absurd (by rw [hother q hl]) hne
      · intro _ q _ hnot
        by_cases hq : q = n
        · exact absurd (by rw [he, hq]) (hnot cfg)
        · rw [setNode_nodes_of_ne _ _ hq]

def Ghost.empty : Ghost := ⟨History.empty, fun _ _ => []⟩

theorem raft_boot (ρ : Regime) {cfg : NodeId → Config} (hcfg : ∀ n ∈ M.peers, (cfg n).Valid M n) :
    (raftInvariant ρ M).Holds M ({}, Ghost.empty) (boot cfg) where
  global := by
    refine ⟨fun t ht => absurd rfl ht, ?_⟩
    exact ⟨.empty, fun t ht => ht.elim, fun t ht => ht.elim⟩
  node p hp := by
    refine ⟨(election_boot hcfg).node p hp, ?_⟩
    exact {
      mem := hp
      valid := hcfg p hp
      term := rfl
      indexed := nofun
      window := ⟨le_rfl, rfl, rfl⟩
      sorted := .nil
      disk := ⟨⟨le_rfl, rfl, rfl⟩, le_rfl⟩
      backed := fun hv => absurd rfl hv
      spent := fun hv => hv.elim
      cand := nofun
      lead := nofun
      commit := fun _ => ⟨le_rfl, rfl, le_rfl, .inl rfl⟩
      plain := fun _ => rfl
      msgs := nofun
      emitted := nofun }
  rest _ _ := rfl
  msg m hm := absurd hm not_mem_nil

/-- What a run keeps; every safety result starts here. -/
theorem raft_run {s' : Cluster} {es : List Event} {os : List Output}
    (h : (raftInvariant ρ M).Holds M (B, γ) s) (hallowed : Cluster.Along M (Allowed ρ) s es)
    (hrun : s.run M es = some (s', os)) :
    ∃ B' γ', (∀ t, B.ldr t ≠ 0 → B'.ldr t = B.ldr t) ∧ γ.hist.Extends γ'.hist ∧
      (raftInvariant ρ M).Holds M (B', γ') s' ∧
      (ρ = .guarded → ∀ o ∈ os, ∀ x ∈ o.ready.committed, Emittable M γ' x) := by
  induction es generalizing s B γ os with
  | nil =>
    cases hrun
    exact ⟨B, γ, fun _ _ => rfl, .refl _, h, nofun⟩
  | cons e es ih =>
    obtain ⟨s₁, o, os', hstep, hrest, rfl⟩ := Cluster.run_cons hrun
    obtain ⟨B₁, γ₁, hkeep₁, hext₁, h₁, hfacts⟩ := raft_step h hallowed.head hstep
    obtain ⟨B', γ', hkeep, hext, h', hemitted⟩ := ih h₁ (hallowed.tail hstep) hrest
    refine ⟨B', γ', fun t ht => ?_, hext₁.trans hext, h', fun hρ o' ho' x hx => ?_⟩
    · have h₁t := hkeep₁ t ht
      rw [hkeep t (by rw [h₁t]; exact ht), h₁t]
    · rcases mem_cons.mp ho' with rfl | ho'
      · exact (hfacts.emitted hρ x hx).mono h₁.global.2 hext
      · exact hemitted hρ o' ho' x hx

theorem along_uncompacted {es : List Event} (h : ∀ e ∈ es, ¬ e.Compacts) :
    Cluster.Along M (Allowed .uncompacted) s es := by
  induction es generalizing s with
  | nil => trivial
  | cons e es ih =>
    refine ⟨h e mem_cons_self, ?_⟩
    cases s.step M e with
    | none => trivial
    | some so => exact ih (fun e' he' => h e' (mem_cons_of_mem _ he'))

end

end Flotilla.Raft
