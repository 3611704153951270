/-
  Server.Node — groups, ranges and the state machine of one node,
  `server/raft_group.cc` and `server/sharded_node.cc`.

  All groups of a node share one database.  Here it is kept by what its keys
  mean: the storage pairs of user keys (raw pairs and the three transactional
  columns), and the system records `RangeKey`, `SpawnsKey` and `AppliedKey`.

  Reading guide:
    * raw client keys never start with 0x00 or '!' (`IsReservedKey`), so the
      three kinds of pairs do not meet in the key space;
    * the database never fails here: a failing one is fatal to the node;
    * an entry is applied in two steps, `applyBegin` (`ApplyCommand`) and
      `applyEnd` (the host callback of a split and the applied marker), because
      requests are routed in between.
-/
import Flotilla.Txn.Records

namespace Flotilla.Server

open Flotilla.Txn (Key Store)

/-! ## Ranges and commands. -/

structure RangeDesc where
  id : Nat
  start : Key
  /-- `end`: empty is +infinity. -/
  endKey : Key
  deriving DecidableEq

def RangeDesc.Contains (d : RangeDesc) (key : Key) : Prop :=
  d.start ≤ key ∧ (d.endKey = [] ∨ key < d.endKey)

instance (d : RangeDesc) (key : Key) : Decidable (d.Contains key) :=
  inferInstanceAs (Decidable (d.start ≤ key ∧ (d.endKey = [] ∨ key < d.endKey)))

/-- A decoded log entry: ops 1 to 7, or the empty command of a new leader. -/
inductive Command where
  | noop
  | put (key : Key) (value : Bytes)
  | delete (key : Key)
  | split (childId : Nat) (key : Key)
  | txn (cmd : Txn.Command)
  | tsTick

def Command.key? : Command → Option Key
  | .put key _ => some key
  | .delete key => some key
  | .txn (.prewrite key _ _ _ _ _) => some key
  | .txn (.commit key _ _) => some key
  | .txn (.rollback key _) => some key
  | _ => none

/-! ## The database. -/

/-- The storage pairs of user keys. -/
structure Pairs where
  raw : Key → Option Bytes := fun _ => none
  txn : Store := {}

/-- All pairs of one user key. -/
structure Cell where
  raw : Option Bytes
  lock : Option Txn.LockRecord
  writes : List (Nat × Txn.WriteRecord)
  data : Nat → Option Bytes

def Pairs.cell (p : Pairs) (key : Key) : Cell :=
  ⟨p.raw key, p.txn.lock key, p.txn.writes key, p.txn.data key⟩

/-- The pairs of `inside` on the range, those of `p` elsewhere. -/
def Pairs.overlay (p : Pairs) (range : RangeDesc) (inside : Pairs) : Pairs where
  raw := fun key => if range.Contains key then inside.raw key else p.raw key
  txn :=
    { lock := fun key => if range.Contains key then inside.txn.lock key else p.txn.lock key
      writes := fun key => if range.Contains key then inside.txn.writes key else p.txn.writes key
      data := fun key => if range.Contains key then inside.txn.data key else p.txn.data key }

structure Db where
  pairs : Pairs := {}
  rangeKey : Nat → Option RangeDesc := fun _ => none
  spawnsKey : Nat → Option (List RangeDesc) := fun _ => none
  appliedKey : Nat → Option Nat := fun _ => none

/-! ## Groups. -/

structure Group where
  /-- `range_` -/
  range : RangeDesc
  /-- `spawned_` -/
  spawned : List RangeDesc := []
  /-- `applied_index_` -/
  appliedIndex : Nat := 0
  /-- An entry is between `applyBegin` and `applyEnd`. -/
  applying : Bool := false
  /-- The child of that entry, until the host has created its group. -/
  spawning : Option RangeDesc := none

namespace Group

/-- `RaftGroup::Init` with an empty raft directory: durable state overrides the given range. -/
def init (db : Db) (range : RangeDesc) : Group where
  range := (db.rangeKey range.id).getD range
  spawned := (db.spawnsKey range.id).getD []
  appliedIndex := (db.appliedKey range.id).getD 0

/-- `ApplySplit` up to the host callback. -/
def applySplit (g : Group) (groupId : Nat) (db : Db) (childId : Nat) (splitKey : Key) :
    Db × Group :=
  if ¬ g.range.Contains splitKey ∨ splitKey = g.range.start then (db, g)
  else if (db.rangeKey childId).isSome then (db, g)  -- child already exists: replay
  else
    let child : RangeDesc := ⟨childId, splitKey, g.range.endKey⟩
    let parentNow : RangeDesc := { g.range with endKey := splitKey }
    let spawned := g.spawned ++ [child]
    let ranges := Function.update (Function.update db.rangeKey childId (some child)) g.range.id
      (some parentNow)
    ({ db with rangeKey := ranges, spawnsKey := Function.update db.spawnsKey groupId (some spawned) },
      { g with range := parentNow, spawned := spawned, spawning := some child })

/-- `ApplyCommand`: no command looks at `range_` but a split. -/
def applyCommand (g : Group) (groupId : Nat) (db : Db) : Command → Db × Group
  | .noop => (db, g)
  | .put key value =>
      let raw := Function.update db.pairs.raw key (some value)
      ({ db with pairs := { db.pairs with raw := raw } }, g)
  | .delete key =>
      let raw := Function.update db.pairs.raw key none
      ({ db with pairs := { db.pairs with raw := raw } }, g)
  | .split childId key => g.applySplit groupId db childId key
  | .txn cmd => ({ db with pairs := { db.pairs with txn := db.pairs.txn.exec cmd } }, g)
  | .tsTick => (db, g)

end Group

/-! ## The node. -/

structure Node where
  db : Db := {}
  /-- `groups_` -/
  groups : AList (fun _ : Nat => Group) := ∅
  /-- `routing_`: range starts in key order, with the group that owns each. -/
  routing : List (Key × Nat) := []

/-- `routing_[start] = id`. -/
def insertRoute (start : Key) (id : Nat) : List (Key × Nat) → List (Key × Nat)
  | [] => [(start, id)]
  | route :: rest =>
      if start < route.1 then (start, id) :: route :: rest
      else if start = route.1 then (start, id) :: rest
      else route :: insertRoute start id rest

namespace Node

def ensureGroup (n : Node) (range : RangeDesc) : Node :=
  match n.groups.lookup range.id with
  | some _ => n
  | none =>
      let group := Group.init n.db range
      { n with
        groups := n.groups.insert range.id group
        routing := insertRoute group.range.start range.id n.routing }

/-- `RouteToGroup`: the last route at or below the key. -/
def routeToGroup (n : Node) (key : Key) : Option Nat :=
  match (n.routing.filter (fun route => route.1 ≤ key)).getLast? with
  | some route => if (n.groups.lookup route.2).isSome then some route.2 else none
  | none => none

/-- 32-bit, like every range id. -/
def allocateRangeId (n : Node) : Nat := (n.groups.keys.foldl max 0 + 1) % 2 ^ 32

/-- The node of `Init` on an empty database. -/
def bootstrap : Node :=
  let initial : RangeDesc := ⟨1, [], []⟩
  let db : Db := { rangeKey := Function.update (fun _ => none) 1 (some initial) }
  ensureGroup { db := db } initial

/-- `ApplyCommand` on the next entry of a group. -/
def applyBegin (n : Node) (groupId : Nat) (cmd : Command) : Node :=
  match n.groups.lookup groupId with
  | some g =>
      let next := g.applyCommand groupId n.db cmd
      { n with
        db := next.1
        groups := n.groups.insert groupId { next.2 with applying := true } }
  | none => n

/-- The host callback of a split, `PersistAppliedMarker` and the new `applied_index_`. -/
def applyEnd (n : Node) (groupId : Nat) : Node :=
  match n.groups.lookup groupId with
  | some g =>
      let hosted := match g.spawning with
        | some child => n.ensureGroup child
        | none => n
      let index := g.appliedIndex + 1
      { hosted with
        db := { hosted.db with
          appliedKey := Function.update hosted.db.appliedKey groupId (some index) }
        groups := hosted.groups.insert groupId
          { g with appliedIndex := index, applying := false, spawning := none } }
  | none => n

def applyEntry (n : Node) (groupId : Nat) (cmd : Command) : Node :=
  (n.applyBegin groupId cmd).applyEnd groupId

def applyLog (n : Node) (groupId : Nat) (log : List Command) : Node :=
  log.foldl (fun n cmd => n.applyEntry groupId cmd) n

/-! ## Snapshots. -/

structure Snapshot where
  lastIndex : Nat
  range : RangeDesc
  spawns : List RangeDesc
  pairs : Pairs

/-- The snapshot of a group at its applied index: the pairs of its range only. -/
def serializeStateMachine (n : Node) (groupId : Nat) : Option Snapshot :=
  (n.groups.lookup groupId).map fun g =>
    let owned := Pairs.overlay {} g.range n.db.pairs
    ⟨g.appliedIndex, g.range, g.spawned, owned⟩

/-- `ApplySnapshot`: wipe exactly the snapshot's range, insert its pairs, and create the
groups of the spawned children (`OnSnapshotRestored`). -/
def applySnapshot (n : Node) (groupId : Nat) (snap : Snapshot) : Node :=
  match n.groups.lookup groupId with
  | some g =>
      let range : RangeDesc := { snap.range with id := groupId }
      let db : Db :=
        { pairs := n.db.pairs.overlay range snap.pairs
          rangeKey := Function.update n.db.rangeKey groupId (some range)
          spawnsKey := Function.update n.db.spawnsKey groupId (some snap.spawns)
          appliedKey := Function.update n.db.appliedKey groupId (some snap.lastIndex) }
      let index := max g.appliedIndex snap.lastIndex
      let group : Group := { g with range := range, spawned := snap.spawns, appliedIndex := index }
      snap.spawns.foldl ensureGroup { n with db := db, groups := n.groups.insert groupId group }
  | none => n

end Node

end Flotilla.Server
