/-
  Server.Cluster — routing, proposing and applying on every node.

  A request is routed on the node that got it, its command is appended to the
  log of the group it was routed to, and every node applies that log when it
  gets there: three steps that interleave freely with each other and with those
  of splits.  Consensus is taken for granted: a group has one log, and a node
  applies it in order.

  Reading guide:
    * `Handle` on `PUT`, `DELETE`, `TXN_PREWRITE`, `TXN_COMMIT`, `TXN_ROLLBACK`:
      `route`, then `append`; on `SPLIT`: `route`, `allocate`, `appendSplit`;
    * `ApplyLoop`: `applyBegin`, then `applyEnd`.
-/
import Flotilla.Lib.Machine
import Flotilla.Server.Descriptors

namespace Flotilla.Server

open Flotilla.Txn (Key)

/-- A request after `RouteToGroup`. -/
structure Routed where
  node : Nat
  group : Nat
  key : Key
  /-- `applied_index_` of the group on that node at that time. -/
  seen : Nat

/-- A split about to be proposed. -/
structure PendingSplit where
  group : Nat
  childId : Nat
  key : Key

structure Cluster where
  nodes : Nat → Node := fun _ => Node.bootstrap
  /-- Everything appended to any group's log, in order. -/
  history : List (Nat × Command) := []
  routed : List Routed := []
  splits : List PendingSplit := []

inductive Event where
  | route (node : Nat) (key : Key)
  /-- `AllocateRangeId`, and the check of `Split` on the range as the node has applied it. -/
  | allocate (routed : Nat)
  | append (routed : Nat) (cmd : Command)
  | appendSplit (split : Nat)
  /-- The empty command of a new leader. -/
  | lead (node group : Nat)
  | applyBegin (node group : Nat)
  | applyEnd (node group : Nat)

/-- `IsReservedKey`. -/
def isReservedKey : Key → Bool
  | b :: _ => b = 0 || b = 33
  | [] => false

/-- `Handle` turns raw writes of reserved keys away; a tick has no key. -/
def Command.accepted (cmd : Command) (key : Key) : Bool :=
  match cmd with
  | .put k _ => k = key && !isReservedKey key
  | .delete k => k = key && !isReservedKey key
  | .txn _ => cmd.key? = some key
  | .tsTick => true
  | _ => false

namespace Cluster

def log (s : Cluster) (group : Nat) : List Command :=
  (s.history.filter (fun e => e.1 = group)).map Prod.snd

def step (s : Cluster) : Event → Option Cluster
  | .route node key =>
      match (s.nodes node).routeToGroup key with
      | some group =>
          ((s.nodes node).groups.lookup group).map fun g =>
            { s with routed := s.routed ++ [⟨node, group, key, g.appliedIndex⟩] }
      | none => none
  | .allocate i =>
      match s.routed[i]? with
      | some r =>
          match (s.nodes r.node).groups.lookup r.group with
          | some g =>
              if g.range.Contains r.key ∧ r.key ≠ g.range.start then
                let childId := (s.nodes r.node).allocateRangeId
                some { s with splits := s.splits ++ [⟨r.group, childId, r.key⟩] }
              else none
          | none => none
      | none => none
  | .append i cmd =>
      match s.routed[i]? with
      | some r =>
          if cmd.accepted r.key then some { s with history := s.history ++ [(r.group, cmd)] }
          else none
      | none => none
  | .appendSplit i =>
      (s.splits[i]?).map fun p =>
        { s with history := s.history ++ [(p.group, .split p.childId p.key)] }
  | .lead node group =>
      if ((s.nodes node).groups.lookup group).isSome then
        some { s with history := s.history ++ [(group, .noop)] }
      else none
  | .applyBegin node group =>
      match (s.nodes node).groups.lookup group with
      | some g =>
          if g.applying then none
          else ((s.log group)[g.appliedIndex]?).map fun cmd =>
            { s with nodes := Function.update s.nodes node ((s.nodes node).applyBegin group cmd) }
      | none => none
  | .applyEnd node group =>
      match (s.nodes node).groups.lookup group with
      | some g =>
          if g.applying then
            some { s with nodes := Function.update s.nodes node ((s.nodes node).applyEnd group) }
          else none
      | none => none

end Cluster

/-- What the events do. -/
inductive Moves (s : Cluster) : Event → Cluster → Prop
  | route {node group : Nat} {key : Key} {g : Group}
      (hroute : (s.nodes node).routeToGroup key = some group)
      (hg : (s.nodes node).groups.lookup group = some g) :
      Moves s (.route node key)
        { s with routed := s.routed ++ [⟨node, group, key, g.appliedIndex⟩] }
  | allocate {i childId : Nat} {r : Routed} (hr : s.routed[i]? = some r) :
      Moves s (.allocate i) { s with splits := s.splits ++ [⟨r.group, childId, r.key⟩] }
  | append {i : Nat} {r : Routed} {cmd : Command} (hr : s.routed[i]? = some r)
      (haccept : cmd.accepted r.key = true) :
      Moves s (.append i cmd) { s with history := s.history ++ [(r.group, cmd)] }
  | appendSplit {i : Nat} {p : PendingSplit} (hp : s.splits[i]? = some p) :
      Moves s (.appendSplit i)
        { s with history := s.history ++ [(p.group, .split p.childId p.key)] }
  | lead {node group : Nat} {g : Group} (hg : (s.nodes node).groups.lookup group = some g) :
      Moves s (.lead node group) { s with history := s.history ++ [(group, .noop)] }
  | applyBegin {node group : Nat} {g : Group} {cmd : Command}
      (hg : (s.nodes node).groups.lookup group = some g) (hidle : g.applying = false)
      (hentry : (s.log group)[g.appliedIndex]? = some cmd) :
      Moves s (.applyBegin node group)
        { s with nodes := Function.update s.nodes node ((s.nodes node).applyBegin group cmd) }
  | applyEnd {node group : Nat} {g : Group}
      (hg : (s.nodes node).groups.lookup group = some g) (hbusy : g.applying = true) :
      Moves s (.applyEnd node group)
        { s with nodes := Function.update s.nodes node ((s.nodes node).applyEnd group) }

theorem Cluster.moves_of_step {s s' : Cluster} {e : Event} (hstep : s.step e = some s') :
    Moves s e s' := by
  unfold Cluster.step at hstep
  cases e with
  | route node key =>
    dsimp only at hstep
    split at hstep
    · rename_i group hroute
      obtain ⟨g, hg, rfl⟩ := map_eq_some_iff.mp hstep
      exact .route hroute hg
    · cases hstep
  | allocate i =>
    dsimp only at hstep
    split at hstep
    · rename_i r hr
      split at hstep
      · split at hstep
        · cases hstep
          exact .allocate hr
        · cases hstep
      · cases hstep
    · cases hstep
  | append i cmd =>
    dsimp only at hstep
    split at hstep
    · rename_i r hr
      split at hstep
      · rename_i haccept
        cases hstep
        exact .append hr haccept
      · cases hstep
    · cases hstep
  | appendSplit i =>
    obtain ⟨p, hp, rfl⟩ := map_eq_some_iff.mp hstep
    exact .appendSplit hp
  | lead node group =>
    dsimp only at hstep
    split at hstep
    · rename_i hsome
      cases hstep
      obtain ⟨g, hg⟩ := isSome_iff_exists.mp hsome
      exact .lead hg
    · cases hstep
  | applyBegin node group =>
    dsimp only at hstep
    split at hstep
    · rename_i g hg
      split at hstep
      · cases hstep
      · rename_i hidle
        obtain ⟨cmd, hentry, rfl⟩ := map_eq_some_iff.mp hstep
        exact .applyBegin hg (Bool.eq_false_iff.mpr hidle) hentry
    · cases hstep
  | applyEnd node group =>
    dsimp only at hstep
    split at hstep
    · rename_i g hg
      split at hstep
      · rename_i hbusy
        cases hstep
        exact .applyEnd hg hbusy
      · cases hstep
    · cases hstep

/-! ## The condition. -/

/-- The child of an appended split has an id that no group and no split in any log has. -/
def freshChild (s : Cluster) : Event → Bool
  | .appendSplit i =>
      match s.splits[i]? with
      | some p =>
          p.childId != 1 && s.history.all fun e =>
            match e.2 with
            | .split c _ => c != p.childId
            | _ => true
      | none => true
  | _ => true

/-- Appending keeps the order of routing and splits: no split at or below the key entered the
group's log after the entries that the routing node had applied, and the child of a split has a
new id. -/
def orderly (s : Cluster) : Event → Bool
  | .append i cmd =>
      match s.routed[i]? with
      | some r =>
          cmd.key?.isNone || ((s.log r.group).drop r.seen).all fun entry =>
            match entry with
            | .split _ x => !decide (x ≤ r.key)
            | _ => true
      | none => true
  | e => freshChild s e

end Flotilla.Server
