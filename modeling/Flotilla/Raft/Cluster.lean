/-
  Raft.Cluster — runs of a cluster of Raft cores.

  Every node is a core over its storage, driven by the host contract: an
  operation, then `TakeReady`, then `Persist`, then the messages are sent
  (`RaftGroup::DrainReady`).  The network keeps every message ever sent and an
  event delivers any of them, so delay, reordering, duplication and loss are
  all choices of events; a restart builds a new core from the storage at any
  time.
-/
import Flotilla.Lib.Machine
import Flotilla.Raft.Storage

namespace Flotilla.Raft

/-! ## Clusters. -/

/-- The static peer set: distinct ids, none of them 0. -/
structure Membership where
  peers : List NodeId
  nodup : peers.Nodup
  nonzero : 0 ∉ peers

/-- A configuration of member `n`: any timeouts and limits, the same peer set. -/
def Config.Valid (M : Membership) (n : NodeId) (cfg : Config) : Prop :=
  cfg.id = n ∧ cfg.peers.Perm M.peers

instance (M : Membership) (n : NodeId) (cfg : Config) : Decidable (cfg.Valid M n) :=
  inferInstanceAs (Decidable (_ ∧ _))

structure Node where
  storage : Storage
  raft : Core

structure Cluster where
  nodes : NodeId → Node
  net : List Message

/-- All nodes fresh, nothing sent. -/
def boot (cfg : NodeId → Config) : Cluster where
  nodes n := ⟨{}, Core.start (cfg n) {} [] {}⟩
  net := []

/-! ## Events. -/

inductive Event where
  | tick (n : NodeId)
  /-- Deliver the `k`-th message ever sent. -/
  | deliver (k : Nat)
  | propose (n : NodeId) (command : Bytes)
  | readIndex (n : NodeId) (ctx : Nat)
  /-- `CompactTo`; `saved` tells whether `SaveSnapshot` succeeded after it. -/
  | compact (n : NodeId) (applied : Nat) (data : Bytes) (saved : Bool)
  /-- A new incarnation from the persisted state. -/
  | restart (n : NodeId) (cfg : Config)

/-- What the host of `node` took out of the core in one step. -/
structure Output where
  node : NodeId
  ready : Ready

namespace Cluster

def setNode (s : Cluster) (n : NodeId) (nd : Node) : Cluster :=
  { s with nodes := Function.update s.nodes n nd }

/-- `DrainReady` after an operation that left node `n` at core `r`. -/
def drain (s : Cluster) (n : NodeId) (r : Core) : Cluster × Output :=
  let (ready, r) := r.takeReady
  let s := s.setNode n ⟨(s.nodes n).storage.persist ready, r⟩
  ({ s with net := s.net ++ ready.messages }, ⟨n, ready⟩)

/-- `MaybeSnapshot` on node `n`. -/
def compactNode (nd : Node) (applied : Nat) (data : Bytes) (saved : Bool) : Node :=
  let r := nd.raft.compactTo applied data
  ⟨if saved then nd.storage.saveSnapshot r.base false else nd.storage, r⟩

def restartNode (nd : Node) (cfg : Config) : Node :=
  ⟨nd.storage, Core.start cfg nd.storage.hard nd.storage.entries nd.storage.snap⟩

def step (M : Membership) (s : Cluster) : Event → Option (Cluster × Output)
  | .tick n => if n ∈ M.peers then some (s.drain n (s.nodes n).raft.tick) else none
  | .deliver k =>
      match s.net[k]? with
      | none => none
      | some m =>
          if m.to_ ∈ M.peers then some (s.drain m.to_ ((s.nodes m.to_).raft.step m)) else none
  | .propose n command =>
      if n ∈ M.peers then ((s.nodes n).raft.propose command).map (s.drain n) else none
  | .readIndex n ctx =>
      -- the host draws `ctx` from a counter, so it never reuses a pending one
      if n ∈ M.peers ∧ ctx ∉ (s.nodes n).raft.pendingReads.map PendingRead.ctx
      then ((s.nodes n).raft.startReadIndex ctx).map (s.drain n) else none
  | .compact n applied data saved =>
      if n ∈ M.peers ∧ applied ≤ (s.nodes n).raft.commit then
        some (s.setNode n (compactNode (s.nodes n) applied data saved), ⟨n, {}⟩)
      else none
  | .restart n cfg =>
      if n ∈ M.peers ∧ cfg.Valid M n then
        some (s.setNode n (restartNode (s.nodes n) cfg), ⟨n, {}⟩)
      else none

/-- A run: the events in order, with everything the hosts took out. -/
def run (M : Membership) (s : Cluster) : List Event → Option (Cluster × List Output)
  | [] => some (s, [])
  | e :: es =>
      match s.step M e with
      | none => none
      | some (s', o) =>
          match run M s' es with
          | none => none
          | some (s'', os) => some (s'', o :: os)

end Cluster

/-! ## A small cluster. -/

/-- Three nodes, for the runs that show a behaviour. -/
def threeNodes : Membership := ⟨[1, 2, 3], by decide, by decide⟩

/-- Every election timeout is one tick, and every tick of a leader is a heartbeat. -/
def eagerConfig (maxEntries : Nat) (n : NodeId) : Config :=
  { id := n, peers := [1, 2, 3], heartbeatInterval := 1, maxEntriesPerMsg := maxEntries,
    draws := fun _ => 1 }

theorem eagerConfig_valid (maxEntries : Nat) (n : NodeId) :
    (eagerConfig maxEntries n).Valid threeNodes n := ⟨rfl, List.Perm.refl _⟩

/-- Node 1 leads the first term. -/
def electOne : List Event := [.tick 1, .deliver 0, .deliver 2]

/-- Node 2 has its no-op. -/
def replicateNoop : List Event := electOne ++ [.deliver 3]

end Flotilla.Raft
