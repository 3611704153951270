/-
  Server.Waiters — who is told that a command was applied.

  `ProposeAndWait` leaves a `PendingProposal` under the index of its entry and
  waits.  `ApplyLoop` applies an entry, counts it, and then looks for a waiter
  under the entry's index: if the terms agree the waiter gets the result of the
  command, else it learns that another leader took the place.  A waiter whose time
  is up erases whatever stands under its index.
-/
import Flotilla.Raft.Minted
import Flotilla.Server.ApplyLoop

namespace Flotilla.Server

open Flotilla.Raft

/-! ## The group's replicas. -/

/-- `PendingProposal`, with the command of the caller that waits for it. -/
structure PendingProposal where
  term : Nat
  command : Bytes

inductive Outcome where
  /-- The status that `ApplyCommand` returned. -/
  | logical
  /-- `NotLeader`. -/
  | superseded
  deriving DecidableEq

/-- A waiter that was told something, and the entry that had just been applied. -/
structure Completion where
  proposal : PendingProposal
  entry : LogEntry
  outcome : Outcome

structure GroupHost where
  applier : Applier := {}
  /-- An entry that is counted in `applied_index_`, and whose waiter is still to be looked for. -/
  counted : Option LogEntry := none
  /-- `proposals_`. -/
  proposals : Nat → Option PendingProposal := fun _ => none
  completions : List Completion := []

namespace GroupHost

/-- `DrainReady`. -/
def push (h : GroupHost) (ready : Ready) : GroupHost := { h with applier := h.applier.push ready }

/-- `proposals_[index] = pending`. -/
def wait (h : GroupHost) (index term : Nat) (command : Bytes) : GroupHost :=
  { h with proposals := Function.update h.proposals index (some ⟨term, command⟩) }

/-- `proposals_.erase(index)`. -/
def erase (h : GroupHost) (index : Nat) : GroupHost :=
  { h with proposals := Function.update h.proposals index none }

def take (h : GroupHost) : Option GroupHost :=
  if h.counted.isNone then h.applier.take.map fun a => { h with applier := a } else none

/-- A step of the loop up to the change of `applied_index_`. -/
def next (h : GroupHost) (fatal : Bool) : Option GroupHost :=
  if h.counted.isNone then
    (h.applier.next fatal).map fun a =>
      { h with
        applier := a
        counted := match h.applier.phase with
          | .marked e => some e
          | _ => none }
  else none

/-- The end of the loop's body, under `raft_mutex_`. -/
def complete (h : GroupHost) : Option GroupHost :=
  match h.counted with
  | none => none
  | some e =>
      match h.proposals e.index with
      | none => some { h with counted := none }
      | some pending =>
          let outcome := if pending.term = e.term then Outcome.logical else .superseded
          some { h.erase e.index with
            counted := none
            completions := h.completions ++ [⟨pending, e, outcome⟩] }

/-- `Init` of a new incarnation: nobody waits. -/
def init (h : GroupHost) (snap : Raft.Snapshot) : GroupHost :=
  { applier := h.applier.init snap, completions := h.completions }

end GroupHost

structure ReplicaGroup where
  cluster : Raft.Cluster
  hosts : NodeId → GroupHost

inductive GroupEvent where
  | tick (n : NodeId)
  | deliver (k : Nat)
  | readIndex (n : NodeId) (ctx : Nat)
  | proposeAndWait (n : NodeId) (command : Bytes)
  /-- The time of a waiter for `index` is up. -/
  | timeout (n : NodeId) (index : Nat)
  | take (n : NodeId)
  | next (n : NodeId) (fatal : Bool)
  | complete (n : NodeId)
  | maybeSnapshot (n : NodeId) (data : Bytes) (saved : Bool)
  | restart (n : NodeId) (cfg : Config)

namespace ReplicaGroup

def boot (cfg : NodeId → Config) : ReplicaGroup := ⟨Raft.boot cfg, fun _ => {}⟩

def setHost (g : ReplicaGroup) (n : NodeId) (h : GroupHost) : ReplicaGroup :=
  { g with hosts := Function.update g.hosts n h }

/-- An event of the cluster of cores; what its host took out goes to the queues. -/
def drive (M : Membership) (g : ReplicaGroup) (e : Raft.Event) : Option ReplicaGroup :=
  (g.cluster.step M e).map fun (cluster, o) =>
    setHost ⟨cluster, g.hosts⟩ o.node ((g.hosts o.node).push o.ready)

def step (M : Membership) (g : ReplicaGroup) : GroupEvent → Option ReplicaGroup
  | .tick n => g.drive M (.tick n)
  | .deliver k => g.drive M (.deliver k)
  | .readIndex n ctx => g.drive M (.readIndex n ctx)
  | .proposeAndWait n command =>
      -- `Propose` reports the index and the term of the entry that it appends
      let r := (g.cluster.nodes n).raft
      (g.drive M (.propose n command)).map fun g' =>
        g'.setHost n ((g'.hosts n).wait (r.lastIndex + 1) r.hard.term command)
  | .timeout n index => some (g.setHost n ((g.hosts n).erase index))
  | .take n => (g.hosts n).take.map (g.setHost n)
  | .next n fatal => ((g.hosts n).next fatal).map (g.setHost n)
  | .complete n => (g.hosts n).complete.map (g.setHost n)
  | .maybeSnapshot n data saved =>
      let h := g.hosts n
      if h.applier.idle ∧ h.counted.isNone then
        if (g.cluster.nodes n).raft.commit < h.applier.appliedIndex then some g
        else g.drive M (.compact n h.applier.appliedIndex data saved)
      else none
  | .restart n cfg =>
      (g.drive M (.restart n cfg)).map fun g' =>
        g'.setHost n ((g'.hosts n).init (g.cluster.nodes n).storage.snap)

/-- Entry `e` is somewhere: in a log, in storage, in a message, in a queue of the apply loop, or
among what was applied. -/
inductive Occurs (M : Membership) (g : ReplicaGroup) (e : LogEntry) : Prop
  | log (n : NodeId) (hn : n ∈ M.peers) (he : e ∈ (g.cluster.nodes n).raft.log)
  | stored (n : NodeId) (hn : n ∈ M.peers) (he : e ∈ (g.cluster.nodes n).storage.entries)
  | message (m : Message) (hm : m ∈ g.cluster.net) (he : e ∈ m.entries)
  | queued (n : NodeId) (he : e ∈ (g.hosts n).applier.applyQueue)
  | taken (n : NodeId) (he : e ∈ (g.hosts n).applier.entries)
  | applied (n : NodeId) (index : Nat) (he : (index, .entry e) ∈ (g.hosts n).applier.actions)

end ReplicaGroup

/-! ## Everything is registered. -/

/-- The entry that the loop is working on. -/
def Phase.entry? : Phase → Option LogEntry
  | .applied e => some e
  | .marked e => some e
  | _ => none

/-- The entries in the hands of the loop are registered. -/
structure Applier.Within (E : Set LogEntry) (a : Applier) : Prop where
  queued : ∀ e ∈ a.applyQueue, e ∈ E
  taken : ∀ e ∈ a.entries, e ∈ E
  current : ∀ e ∈ a.phase.entry?, e ∈ E
  applied : ∀ i e, (i, .entry e) ∈ a.actions → e ∈ E

structure GroupHost.Within (E : Set LogEntry) (h : GroupHost) : Prop where
  applier : h.applier.Within E
  counted : ∀ e ∈ h.counted, e ∈ E
  waiting : ∀ index pending, h.proposals index = some pending →
    (⟨pending.term, index, pending.command⟩ : LogEntry) ∈ E
  told : ∀ c ∈ h.completions, c.outcome = .logical → c.entry.command = c.proposal.command

namespace Applier.Within

variable {E E' : Set LogEntry} {a a' : Applier}

theorem mono (h : a.Within E) (hE : E ⊆ E') : a.Within E' where
  queued e he := hE (h.queued e he)
  taken e he := hE (h.taken e he)
  current e he := hE (h.current e he)
  applied i e he := hE (h.applied i e he)

theorem push (h : a.Within E) {ready : Ready} (hready : ∀ e ∈ ready.committed, e ∈ E) :
    (a.push ready).Within E :=
  { h with queued := fun e he => (mem_append.mp he).elim (h.queued e) (hready e) }

theorem take (h : a.Within E) (hstep : a.take = some a') : a'.Within E := by
  unfold Applier.take at hstep
  split at hstep
  · cases hstep
    exact { h with
      queued := nofun
      taken := h.queued }
  · cases hstep

theorem applySnapshot (h : a.Within E) (snap : Raft.Snapshot) : (a.applySnapshot snap).Within E :=
  { h with
    applied := fun i e he => by
      rcases mem_append.mp he with hold | hnew
      · exact h.applied i e hold
      · simp at hnew }

theorem next (h : a.Within E) {fatal : Bool} (hstep : a.next fatal = some a') : a'.Within E := by
  unfold Applier.next at hstep
  split at hstep
  · split at hstep
    · rename_i snap snaps _
      split at hstep
      · cases hstep
      · cases hstep
        exact { h.applySnapshot snap with current := nofun }
    · cases hstep
    · rename_i e entries _ hentries
      have hrest : ∀ f ∈ entries, f ∈ E := fun f hf => h.taken f (hentries ▸ mem_cons_of_mem e hf)
      have he : e ∈ E := h.taken e (hentries ▸ mem_cons_self)
      split at hstep
      · cases hstep
        exact { h with taken := hrest }
      · split at hstep
        · cases hstep
          exact { h with current := nofun }
        · cases hstep
          exact { h with
            taken := hrest
            current := fun f hf => by
              cases hf
              exact he
            applied := fun i f hf => by
              rcases mem_append.mp hf with hold | hnew
              · exact h.applied i f hold
              · cases mem_singleton.mp hnew
                exact he }
  · cases hstep
    exact { h with current := nofun }
  · rename_i e hphase
    split at hstep
    · cases hstep
      exact { h with current := nofun }
    · cases hstep
      exact { h with
        current := fun f hf => by
          cases hf
          exact h.current e (by rw [hphase]; rfl) }
  · cases hstep
    exact { h with current := nofun }
  · cases hstep

theorem init (h : a.Within E) (snap : Raft.Snapshot) : (a.init snap).Within E := by
  have hfresh : Applier.Within E
      { appliedIndex := a.marker, marker := a.marker, actions := a.actions } := {
    queued := nofun
    taken := nofun
    current := nofun
    applied := h.applied }
  unfold Applier.init
  dsimp only
  split
  · exact { hfresh.applySnapshot snap with }
  · exact { hfresh with }

end Applier.Within

namespace GroupHost.Within

variable {E E' : Set LogEntry} {h h' : GroupHost}

section

variable (hw : h.Within E)

include hw

theorem mono (hE : E ⊆ E') : h.Within E' where
  applier := hw.applier.mono hE
  counted e he := hE (hw.counted e he)
  waiting index pending hp := hE (hw.waiting index pending hp)
  told := hw.told

theorem push {ready : Ready} (hready : ∀ e ∈ ready.committed, e ∈ E) : (h.push ready).Within E :=
  { hw with applier := hw.applier.push hready }

theorem wait {index term : Nat} {command : Bytes}
    (he : (⟨term, index, command⟩ : LogEntry) ∈ E) : (h.wait index term command).Within E :=
  { hw with
    waiting := fun i pending hp => by
      by_cases hi : i = index
      · subst hi
        have hself : (h.wait i term command).proposals i = some ⟨term, command⟩ := update_self ..
        rw [hself] at hp
        cases hp
        exact he
      · have hother : (h.wait index term command).proposals i = h.proposals i := update_of_ne hi ..
        exact hw.waiting i pending (hother.symm.trans hp) }

theorem erase (index : Nat) : (h.erase index).Within E :=
  { hw with
    waiting := fun i pending hp => by
      have hne : i ≠ index := by
        intro heq
        subst heq
        have hnone : (h.erase i).proposals i = none := update_self ..
        rw [hnone] at hp
        cases hp
      have hother : (h.erase index).proposals i = h.proposals i := update_of_ne hne ..
      exact hw.waiting i pending (hother.symm.trans hp) }

theorem take (hstep : h.take = some h') : h'.Within E := by
  unfold GroupHost.take at hstep
  split at hstep
  · obtain ⟨a, ha, heq⟩ := map_eq_some_iff.mp hstep
    cases heq
    exact { hw with applier := hw.applier.take ha }
  · cases hstep

theorem next {fatal : Bool} (hstep : h.next fatal = some h') : h'.Within E := by
  unfold GroupHost.next at hstep
  split at hstep
  · obtain ⟨a, ha, heq⟩ := map_eq_some_iff.mp hstep
    cases heq
    refine { hw with
      applier := hw.applier.next ha
      counted := fun e he => ?_ }
    dsimp only at he
    split at he
    · rename_i f hphase
      cases he
      exact hw.applier.current e (by rw [hphase]; rfl)
    · cases he
  · cases hstep

theorem complete (hunique : ∀ e ∈ E, ∀ f ∈ E, e.index = f.index → e.term = f.term → e = f)
    (hstep : h.complete = some h') : h'.Within E := by
  unfold GroupHost.complete at hstep
  split at hstep
  · cases hstep
  · rename_i e hcounted
    split at hstep
    · cases hstep
      exact { hw with counted := nofun }
    · rename_i pending hpending
      cases hstep
      refine { hw.erase e.index with
        counted := nofun
        told := fun c hc hlogical => ?_ }
      rcases mem_append.mp hc with hold | hnew
      · exact hw.told c hold hlogical
      · cases mem_singleton.mp hnew
        have hterm : pending.term = e.term := by
          by_contra hne
          have hsuper : (if pending.term = e.term then Outcome.logical else .superseded) =
            .logical := hlogical
          rw [if_neg hne] at hsuper
          cases hsuper
        have hsame := hunique _ (hw.waiting e.index pending hpending) e
          (hw.counted e hcounted) rfl hterm
        show e.command = pending.command
        rw [← hsame]

theorem init (snap : Raft.Snapshot) : (h.init snap).Within E where
  applier := hw.applier.init snap
  counted _ he := by cases he
  waiting _ _ hp := by cases hp
  told := hw.told

end

end GroupHost.Within

/-! ## Steps and runs. -/

/-- The registry covers the cores, the network and the hosts. -/
structure ReplicaGroup.Ok (M : Membership) (L : Ledger) (g : ReplicaGroup) : Prop where
  cluster : (mintInvariant M).Holds M L g.cluster
  hosts : ∀ n, (g.hosts n).Within L.made

namespace ReplicaGroup.Ok

variable {M : Membership} {L : Ledger} {g g' : ReplicaGroup}

theorem setHost (hok : g.Ok M L) {n : NodeId} {h : GroupHost} (hw : h.Within L.made) :
    (g.setHost n h).Ok M L where
  cluster := hok.cluster
  hosts p := by
    by_cases hp : p = n
    · subst hp
      show (update g.hosts p h p).Within L.made
      rw [update_self]
      exact hw
    · show (update g.hosts n h p).Within L.made
      rw [update_of_ne hp]
      exact hok.hosts p

theorem drive (hok : g.Ok M L) {e : Raft.Event} (hstep : g.drive M e = some g') :
    ∃ L', L.made ⊆ L'.made ∧ g'.Ok M L' ∧ ∃ o, g.cluster.step M e = some (g'.cluster, o) := by
  obtain ⟨⟨cluster, o⟩, hcluster, heq⟩ := map_eq_some_iff.mp hstep
  obtain ⟨L', hmade, hcommitted, hholds⟩ := mint_step hok.cluster hcluster
  have hhosts : ReplicaGroup.Ok M L' ⟨cluster, g.hosts⟩ :=
    ⟨hholds, fun n => (hok.hosts n).mono hmade⟩
  cases heq
  exact ⟨L', hmade, hhosts.setHost ((hhosts.hosts o.node).push hcommitted), o, hcluster⟩

theorem proposed (hok : g'.Ok M L) {n : NodeId} {command : Bytes} {o : Output}
    (hstep : g.cluster.step M (.propose n command) = some (g'.cluster, o)) :
    (⟨(g.cluster.nodes n).raft.hard.term, (g.cluster.nodes n).raft.lastIndex + 1, command⟩ :
      LogEntry) ∈ L.made := by
  simp only [Raft.Cluster.step] at hstep
  split at hstep
  · rename_i hn
    obtain ⟨r, hr, heq⟩ := map_eq_some_iff.mp hstep
    have hcluster : g'.cluster = (g.cluster.drain n r).1 := congrArg Prod.fst heq.symm
    have hlog := (hok.cluster.node n hn).carries.log
    rw [hcluster, Raft.Cluster.drain_nodes_self] at hlog
    have hmem := Core.propose_mem hr
    exact hlog _ hmem
  · cases hstep

theorem step (hok : g.Ok M L) {e : GroupEvent} (hstep : g.step M e = some g') :
    ∃ L', L.made ⊆ L'.made ∧ g'.Ok M L' := by
  cases e with
  | tick n =>
    obtain ⟨L', hmade, hok', _⟩ := hok.drive hstep
    exact ⟨L', hmade, hok'⟩
  | deliver k =>
    obtain ⟨L', hmade, hok', _⟩ := hok.drive hstep
    exact ⟨L', hmade, hok'⟩
  | readIndex n ctx =>
    obtain ⟨L', hmade, hok', _⟩ := hok.drive hstep
    exact ⟨L', hmade, hok'⟩
  | proposeAndWait n command =>
    obtain ⟨g₁, hdrive, heq⟩ := map_eq_some_iff.mp hstep
    obtain ⟨L', hmade, hok', o, hcluster⟩ := hok.drive hdrive
    cases heq
    exact ⟨L', hmade, hok'.setHost ((hok'.hosts n).wait (hok'.proposed hcluster))⟩
  | timeout n index =>
    cases hstep
    exact ⟨L, Set.Subset.rfl, hok.setHost ((hok.hosts n).erase index)⟩
  | take n =>
    obtain ⟨h, hh, heq⟩ := map_eq_some_iff.mp hstep
    cases heq
    exact ⟨L, Set.Subset.rfl, hok.setHost ((hok.hosts n).take hh)⟩
  | next n fatal =>
    obtain ⟨h, hh, heq⟩ := map_eq_some_iff.mp hstep
    cases heq
    exact ⟨L, Set.Subset.rfl, hok.setHost ((hok.hosts n).next hh)⟩
  | complete n =>
    obtain ⟨h, hh, heq⟩ := map_eq_some_iff.mp hstep
    cases heq
    exact ⟨L, Set.Subset.rfl, hok.setHost ((hok.hosts n).complete hok.cluster.global.unique hh)⟩
  | maybeSnapshot n data saved =>
    unfold ReplicaGroup.step at hstep
    dsimp only at hstep
    split at hstep
    · split at hstep
      · cases hstep
        exact ⟨L, Set.Subset.rfl, hok⟩
      · obtain ⟨L', hmade, hok', _⟩ := hok.drive hstep
        exact ⟨L', hmade, hok'⟩
    · cases hstep
  | restart n cfg =>
    obtain ⟨g₁, hdrive, heq⟩ := map_eq_some_iff.mp hstep
    obtain ⟨L', hmade, hok', _⟩ := hok.drive hdrive
    cases heq
    exact ⟨L', hmade, hok'.setHost ((hok'.hosts n).init _)⟩

theorem run (hok : g.Ok M L) {es : List GroupEvent}
    (hrun : Machine.run (ReplicaGroup.step M) g es = some g') :
    ∃ L', L.made ⊆ L'.made ∧ g'.Ok M L' := by
  -- nothing that was registered at the start is forgotten on the way
  refine Machine.run_invariant (I := fun s => ∃ L', L.made ⊆ L'.made ∧ s.Ok M L') ?_
    ⟨L, Set.Subset.rfl, hok⟩ hrun
  intro s e s' hs hstep
  obtain ⟨L₁, hmade, hok₁⟩ := hs
  obtain ⟨L₂, hmade', hok₂⟩ := hok₁.step hstep
  exact ⟨L₂, hmade.trans hmade', hok₂⟩

theorem boot {cfg : NodeId → Config} (hcfg : ∀ n ∈ M.peers, (cfg n).Valid M n) :
    (ReplicaGroup.boot cfg).Ok M {} where
  cluster := mint_boot hcfg
  hosts _ := {
    applier := {
      queued := nofun
      taken := nofun
      current := nofun
      applied := nofun }
    counted := nofun
    waiting := nofun
    told := nofun }

theorem made_of_occurs (hok : g.Ok M L) {e : LogEntry} (h : g.Occurs M e) : e ∈ L.made := by
  cases h with
  | log n hn he => exact (hok.cluster.node n hn).carries.log e he
  | stored n hn he => exact (hok.cluster.node n hn).stored e he
  | message m hm he => exact (hok.cluster.msg m hm).carries.entries e he
  | queued n he => exact (hok.hosts n).applier.queued e he
  | taken n he => exact (hok.hosts n).applier.taken e he
  | applied n index he => exact (hok.hosts n).applier.applied index e he

end ReplicaGroup.Ok

/-- **No false acknowledgement.**  In every run, an entry that exists at one time and an entry that
exists at a later time have the same command if they have the same index and term; and a waiter that
is given the result of a command proposed that very command. -/
theorem no_false_acknowledgement {M : Membership} {cfg : NodeId → Config}
    (hcfg : ∀ n ∈ M.peers, (cfg n).Valid M n) {es later : List GroupEvent} {g g' : ReplicaGroup}
    (hrun : Machine.run (ReplicaGroup.step M) (ReplicaGroup.boot cfg) es = some g)
    (hlater : Machine.run (ReplicaGroup.step M) g later = some g') :
    (∀ e f, g.Occurs M e → g'.Occurs M f → e.index = f.index → e.term = f.term →
        e.command = f.command) ∧
      ∀ n, ∀ c ∈ (g'.hosts n).completions, c.outcome = .logical →
        c.entry.command = c.proposal.command := by
  obtain ⟨L, _, hok⟩ := (ReplicaGroup.Ok.boot hcfg).run hrun
  obtain ⟨L', hmade, hok'⟩ := hok.run hlater
  refine ⟨fun e f he hf hindex hterm => ?_, fun n => (hok'.hosts n).told⟩
  have hsame := hok'.cluster.global.unique e (hmade (hok.made_of_occurs he)) f
    (hok'.made_of_occurs hf) hindex hterm
  rw [hsame]

/-- Node 1 leads the first term and appends an entry at index 2 that nobody else gets; node 2 leads
the second term and puts its own entry there. -/
def reusedIndex : List GroupEvent :=
  [.tick 1, .deliver 0, .deliver 2, .proposeAndWait 1 [7], .tick 2, .deliver 8, .deliver 9,
    .proposeAndWait 2 [8]]

/-- The second leader replicates, commits and tells node 1; both nodes apply what is at index 2. -/
def bothApply : List GroupEvent :=
  [.deliver 12, .deliver 13, .deliver 14, .deliver 15, .tick 2, .deliver 16] ++
    [1, 2].flatMap fun n => .take n ::
      (List.replicate 2 [.next n false, .next n false, .next n false, .complete n]).flatten

theorem no_false_acknowledgement_reusedIndex : ∃ g g',
    Machine.run (ReplicaGroup.step threeNodes) (ReplicaGroup.boot (eagerConfig 10)) reusedIndex =
        some g ∧
      Machine.run (ReplicaGroup.step threeNodes) g bothApply = some g' ∧
      (g'.hosts 1).completions.map (fun c => (c.proposal.command, c.entry.command, c.outcome)) =
        [([7], [8], .superseded)] ∧
      (g'.hosts 2).completions.map (fun c => (c.proposal.command, c.entry.command, c.outcome)) =
        [([8], [8], .logical)] ∧
      ∀ e f, g.Occurs threeNodes e → g'.Occurs threeNodes f → e.index = f.index →
        e.term = f.term → e.command = f.command := by
  obtain ⟨g, hrun, g', hlater, hfirst, hsecond⟩ : ∃ g, Machine.run (ReplicaGroup.step threeNodes)
      (ReplicaGroup.boot (eagerConfig 10)) reusedIndex = some g ∧
        ∃ g', Machine.run (ReplicaGroup.step threeNodes) g bothApply = some g' ∧
          (g'.hosts 1).completions.map (fun c => (c.proposal.command, c.entry.command, c.outcome)) =
            [([7], [8], .superseded)] ∧
          (g'.hosts 2).completions.map (fun c => (c.proposal.command, c.entry.command, c.outcome)) =
            [([8], [8], .logical)] := by decide +kernel
  exact ⟨g, g', hrun, hlater, hfirst, hsecond,
    (no_false_acknowledgement (fun n _ => eagerConfig_valid 10 n) hrun hlater).1⟩

end Flotilla.Server
