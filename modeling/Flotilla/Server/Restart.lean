/-
  Server.Restart — a node stops and runs `ShardedNode::Init` again.

  `Init` scans the `RangeKey` records and creates one group for each.  A child
  group comes into being in two ways, by an applied split and by a restored
  snapshot that lists it in its spawns; only the first one writes a descriptor.

  Raft snapshots newer than the applied marker do not occur between operations,
  so `RaftGroup::Init` restores none.
-/
import Flotilla.Lib.Machine
import Flotilla.Server.Descriptors

namespace Flotilla.Server

open Node
open Flotilla.Txn (Key)

/-! ## `Init`. -/

namespace Node

/-- What the scan finds; the id of a descriptor is in its key. -/
def discover (db : Db) (ids : List Nat) : List RangeDesc :=
  ids.filterMap fun i => (db.rangeKey i).map fun d => { d with id := i }

/-- `ShardedNode::Init` on a database; `ids` are the ids with a descriptor. -/
def init (db : Db) (ids : List Nat) : Node :=
  match discover db ids with
  | [] =>
      let initial : RangeDesc := ⟨1, [], []⟩
      let db : Db := { db with rangeKey := Function.update db.rangeKey 1 (some initial) }
      ensureGroup { db := db } initial
  | ranges => ranges.foldl ensureGroup { db := db }

end Node

/-- A descriptor is stored under its id. -/
def Named (db : Db) : Prop := ∀ i d, db.rangeKey i = some d → d.id = i

/-- `ids` are the ids of the descriptors in the database. -/
def Scans (db : Db) (ids : List Nat) : Prop := ∀ i, i ∈ ids ↔ db.rangeKey i ≠ none

variable {db : Db}

theorem Node.find?_discover (hident : Named db) {ids : List Nat} {j : Nat}
    (hj : db.rangeKey j ≠ none → j ∈ ids) :
    (Node.discover db ids).find? (fun e => e.id = j) = db.rangeKey j := by
  induction ids with
  | nil =>
    by_contra hne
    exact not_mem_nil (hj (fun hnone => hne hnone.symm))
  | cons i ids ih =>
    unfold Node.discover
    rw [List.filterMap_cons]
    cases hi : db.rangeKey i with
    | none =>
      apply ih
      intro hsome
      refine (mem_cons.mp (hj hsome)).resolve_left ?_
      rintro rfl
      exact hsome hi
    | some d =>
      show List.find? _ ({ d with id := i } :: Node.discover db ids) = _
      by_cases hij : i = j
      · rw [List.find?_cons_of_pos (by simpa using hij), ← hij, hi]
        have hid := hident _ _ hi
        rw [← hid]
      · rw [List.find?_cons_of_neg (by simpa using hij)]
        apply ih
        exact fun hsome => (mem_cons.mp (hj hsome)).resolve_left (Ne.symm hij)

section

variable {db : Db} {ids : List Nat}

variable {i : Nat}

theorem Node.init_eq (hids : Scans db ids) (hi : db.rangeKey i ≠ none) :
    Node.init db ids = (Node.discover db ids).foldl Node.ensureGroup { db := db } := by
  have hne : Node.discover db ids ≠ [] := by
    obtain ⟨d, hd⟩ := ne_none_iff_exists'.mp hi
    refine List.ne_nil_of_mem (a := { d with id := i }) (mem_filterMap.mpr ?_)
    exact ⟨i, (hids i).mpr hi, by rw [hd]; rfl⟩
  unfold Node.init
  split
  · rename_i hnil
    exact absurd hnil hne
  · rfl

theorem Node.init_db (hids : Scans db ids) (hi : db.rangeKey i ≠ none) :
    (Node.init db ids).db = db := by
  rw [init_eq hids hi, foldl_ensureGroup_db]

theorem Node.init_lookup (hident : Named db) (hids : Scans db ids) (hi : db.rangeKey i ≠ none)
    (j : Nat) :
    (Node.init db ids).groups.lookup j = (db.rangeKey j).map (Group.init db) := by
  rw [init_eq hids hi, lookup_foldl_ensureGroup]
  show (none : Option Group).or _ = _
  rw [none_or]
  rw [Node.find?_discover hident (hids j).mpr]

theorem Group.init_range (hident : Named db) {d : RangeDesc} (hd : db.rangeKey i = some d) :
    (Group.init db d).range = d := by
  show (db.rangeKey d.id).getD d = d
  rw [hident _ _ hd, hd]
  rfl

theorem Node.init_range? (hident : Named db) (hids : Scans db ids) (hi : db.rangeKey i ≠ none)
    (j : Nat) :
    (Node.init db ids).range? j = db.rangeKey j := by
  unfold range?
  rw [init_lookup hident hids hi]
  cases hd : db.rangeKey j with
  | none => rfl
  | some d => exact congrArg some (Group.init_range hident hd)

theorem Stored.init (hident : Named db) (hids : Scans db ids) (hi : db.rangeKey i ≠ none) :
    Stored (Node.init db ids) ∧ (Node.init db ids).idle = true := by
  have hdb := init_db hids hi
  have hgroup : ∀ {j g}, (Node.init db ids).groups.lookup j = some g →
      ∃ d, db.rangeKey j = some d ∧ g = Group.init db d := by
    intro j g hg
    rw [init_lookup hident hids hi] at hg
    obtain ⟨d, hd, rfl⟩ := map_eq_some_iff.mp hg
    exact ⟨d, hd, rfl⟩
  refine ⟨⟨fun {j g} hg => ?_, fun {j d} hd => ?_, fun {c} hc => ?_, fun {j g e} hg he => ?_,
    fun {j g} hg _ => ?_⟩, idle_iff.mpr fun {j g} hg => ?_⟩
  · obtain ⟨d, hd, rfl⟩ := hgroup hg
    rw [hdb, hd, Group.init_range hident hd]
  · rw [hdb] at hd
    exact hident _ _ hd
  · rw [hdb] at hc
    obtain ⟨d, hd⟩ := ne_none_iff_exists'.mp hc
    left
    rw [init_lookup hident hids hi, hd]
    simp
  · obtain ⟨d, _, rfl⟩ := hgroup hg
    cases he
  · obtain ⟨d, _, rfl⟩ := hgroup hg
    rfl
  · obtain ⟨d, _, rfl⟩ := hgroup hg
    rfl

end

/-! ## The routing table after a restart. -/

/-- The routing table lists the starts of the groups. -/
structure Routes (n : Node) : Prop where
  routes : ∀ {s i}, (s, i) ∈ n.routing ↔ ∃ d, n.range? i = some d ∧ d.start = s
  sorted : n.routing.Pairwise (fun a b => a.1 < b.1)

theorem Routes.empty (db : Db) : Routes { db := db } := by
  refine ⟨fun {s i} => ?_, .nil⟩
  constructor
  · intro hmem
    exact (not_mem_nil hmem).elim
  · rintro ⟨d, hd, _⟩
    cases hd

theorem Routes.ensureGroup {n : Node} (h : Routes n) {e : RangeDesc}
    (hfree : n.groups.lookup e.id = none → ∀ {i d}, n.range? i = some d →
      d.start ≠ (Group.init n.db e).range.start) : Routes (n.ensureGroup e) := by
  unfold Node.ensureGroup
  split
  · exact h
  · rename_i hnone
    have hfree : ∀ route ∈ n.routing, route.1 ≠ (Group.init n.db e).range.start := by
      rintro ⟨s, i⟩ hroute
      obtain ⟨d, hd, rfl⟩ := h.routes.mp hroute
      exact hfree hnone hd
    refine ⟨fun {s i} => ?_, sorted_insertRoute hfree h.sorted⟩
    show (s, i) ∈ insertRoute _ e.id n.routing ↔
      ∃ d, ((n.groups.insert e.id (Group.init n.db e)).lookup i).map Group.range = some d ∧
        d.start = s
    rw [mem_insertRoute hfree, h.routes]
    by_cases hi : i = e.id
    · subst hi
      rw [AList.lookup_insert]
      constructor
      · rintro (heq | ⟨d, hd, _⟩)
        · exact ⟨_, rfl, (Prod.mk.inj heq).1.symm⟩
        · unfold range? at hd
          rw [hnone] at hd
          cases hd
      · rintro ⟨d, hd, rfl⟩
        cases hd
        exact .inl rfl
    · rw [AList.lookup_insert_ne hi]
      constructor
      · rintro (heq | hold)
        · exact absurd (Prod.mk.inj heq).2 hi
        · exact hold
      · exact .inr

theorem Routes.foldl_ensureGroup (hpart : Partition db.rangeKey) (hident : Named db)
    {ranges : List RangeDesc} (hranges : ∀ e ∈ ranges, db.rangeKey e.id = some e) {n : Node}
    (hdb : n.db = db) (hosted : ∀ {i d}, n.range? i = some d → db.rangeKey i = some d)
    (h : Routes n) :
    Routes (ranges.foldl Node.ensureGroup n) := by
  induction ranges generalizing n with
  | nil => exact h
  | cons e ranges ih =>
    have he := hranges e mem_cons_self
    have hinit : (Group.init n.db e).range = e := by
      rw [hdb]
      exact Group.init_range hident he
    refine ih (fun e' he' => hranges e' (mem_cons_of_mem e he'))
      ((n.ensureGroup_db e).trans hdb) ?_ ?_
    · intro i d hd
      obtain ⟨g, hg, rfl⟩ := map_eq_some_iff.mp hd
      rcases lookup_ensureGroup_cases hg with hg | ⟨rfl, _, rfl⟩
      · exact hosted (by unfold range?; rw [hg]; rfl)
      · rw [hinit]
        exact he
    · apply h.ensureGroup
      intro hnone i d hd hstart
      rw [hinit] at hstart
      have hie := hpart.start_inj (hosted hd) he hstart
      unfold range? at hd
      rw [hie, hnone] at hd
      cases hd

theorem Tiling.init {ids : List Nat} (hpart : Partition db.rangeKey) (hident : Named db)
    (hids : Scans db ids) :
    Tiling (Node.init db ids).range? (Node.init db ids).routing := by
  obtain ⟨i, d, hi, _⟩ := hpart.cover []
  have hi : db.rangeKey i ≠ none := by
    rw [hi]
    simp
  have hranges : ∀ e ∈ Node.discover db ids, db.rangeKey e.id = some e := by
    intro e he
    obtain ⟨j, _, hj⟩ := mem_filterMap.mp he
    obtain ⟨d, hd, rfl⟩ := map_eq_some_iff.mp hj
    have hid := hident _ _ hd
    show db.rangeKey j = some { d with id := j }
    rw [hd, ← hid]
  have hroutes : Routes (Node.init db ids) := by
    rw [init_eq hids hi]
    exact .foldl_ensureGroup hpart hident hranges rfl nofun (.empty db)
  have hrange : (Node.init db ids).range? = db.rangeKey := funext (init_range? hident hids hi)
  rw [hrange]
  refine ⟨hpart, ?_, hroutes.sorted⟩
  rw [← hrange]
  exact hroutes.routes

/-! ## A node over its life. -/

structure Host where
  node : Node := Node.bootstrap
  /-- Ids that have been given a descriptor, for the scan. -/
  known : List Nat := [1]

inductive HostEvent where
  | apply (group : Nat) (cmd : Command)
  | restore (group : Nat) (snap : Node.Snapshot)
  /-- `Stop` and `Init`; the scan may find the descriptors in any order. -/
  | restart (ids : List Nat)

namespace Host

def step (h : Host) : HostEvent → Option Host
  | .apply group cmd =>
      if (h.node.groups.lookup group).isSome then
        let known := match cmd with
          | .split childId _ => childId :: h.known
          | _ => h.known
        some ⟨h.node.applyEntry group cmd, known⟩
      else none
  | .restore group snap =>
      if (h.node.groups.lookup group).isSome then
        some ⟨h.node.applySnapshot group snap, group :: h.known⟩
      else none
  | .restart ids =>
      if (∀ i ∈ ids, i ∈ h.known) ∧ (∀ i ∈ h.known, i ∈ ids ↔ h.node.db.rangeKey i ≠ none) then
        some { h with node := Node.init h.node.db ids }
      else none

/-- A restored snapshot lists only children that have a group on this node. -/
def settled (h : Host) : HostEvent → Bool
  | .restore _ snap => snap.spawns.all fun child => (h.node.groups.lookup child.id).isSome
  | _ => true

structure Ok (h : Host) : Prop where
  stored : Stored h.node
  idle : h.node.idle = true
  root : h.node.db.rangeKey 1 ≠ none
  known : ∀ {i}, h.node.db.rangeKey i ≠ none → i ∈ h.known

end Host

section

variable {n : Node} {i : Nat} {g : Group}

theorem Node.applyEnd_rangeKey (n : Node) (i : Nat) :
    (n.applyEnd i).db.rangeKey = n.db.rangeKey := by
  unfold Node.applyEnd
  cases n.groups.lookup i with
  | none => rfl
  | some g =>
    cases hspawn : g.spawning with
    | none =>
      dsimp only
      rw [hspawn]
    | some e =>
      dsimp only
      rw [hspawn]
      exact congrArg Db.rangeKey (n.ensureGroup_db e)

theorem Stored.rangeKey_applyEntry (h : Stored n) (hg : n.groups.lookup i = some g) (cmd : Command)
    (j : Nat) :
    (n.db.rangeKey j ≠ none → (n.applyEntry i cmd).db.rangeKey j ≠ none) ∧
      ((n.applyEntry i cmd).db.rangeKey j ≠ none →
        n.db.rangeKey j ≠ none ∨ ∃ x, cmd = .split j x) := by
  have hid : g.range.id = i := h.ident (h.hosted hg)
  have hbegin : (n.applyBegin i cmd).db = (g.applyCommand i n.db cmd).1 := by
    unfold Node.applyBegin
    rw [hg]
  unfold Node.applyEntry
  rw [applyEnd_rangeKey, hbegin]
  rcases g.applyCommand_spec i n.db cmd with ⟨_, hkeys, _⟩ | ⟨c, x, rfl, _, _, _, _, hkeys, _⟩
  · rw [hkeys]
    exact ⟨id, .inl⟩
  · rw [hkeys, hid]
    by_cases hji : j = i
    · rw [hji, update_self, h.hosted hg]
      exact ⟨fun _ => by simp, fun _ => .inl (by simp)⟩
    · rw [update_of_ne hji]
      by_cases hjc : j = c
      · rw [hjc, update_self]
        exact ⟨fun _ => by simp, fun _ => .inr ⟨x, rfl⟩⟩
      · rw [update_of_ne hjc]
        exact ⟨id, .inl⟩

theorem Node.idle_applyEntry (hidle : n.idle = true) (cmd : Command) :
    (n.applyEntry i cmd).idle = true := by
  have hbegin : ∀ {j g'}, (n.applyBegin i cmd).groups.lookup j = some g' → j ≠ i →
      g'.applying = false := by
    intro j g' hj hji
    unfold Node.applyBegin at hj
    split at hj
    · exact idle_iff.mp hidle ((AList.lookup_insert_ne hji).symm.trans hj)
    · exact idle_iff.mp hidle hj
  apply idle_iff.mpr
  intro j g' hj
  unfold Node.applyEntry Node.applyEnd at hj
  split at hj
  · rename_i g hg
    rcases lookup_insert_cases hj with ⟨_, rfl⟩ | ⟨hji, hj⟩
    · rfl
    · split at hj
      · rcases lookup_ensureGroup_cases hj with hj | ⟨_, _, rfl⟩
        · exact hbegin hj hji
        · rfl
      · exact hbegin hj hji
  · rename_i hnone
    refine hbegin hj ?_
    rintro rfl
    rw [hnone] at hj
    cases hj

theorem Stored.applySnapshot (h : Stored n) (hidle : n.idle = true)
    (hg : n.groups.lookup i = some g) {snap : Node.Snapshot}
    (hspawns : ∀ e ∈ snap.spawns, n.groups.lookup e.id ≠ none) :
    Stored (n.applySnapshot i snap) ∧ (n.applySnapshot i snap).idle = true ∧
      (n.applySnapshot i snap).db.rangeKey =
        update n.db.rangeKey i (some { snap.range with id := i }) := by
  have hquiet := h.idle hg (idle_iff.mp hidle hg)
  unfold Node.applySnapshot
  rw [hg]
  dsimp only
  rw [foldl_ensureGroup_hosted (fun e he => lookup_insert_ne_none _ (hspawns e he))]
  refine ⟨⟨fun {j gj} hj => ?_, fun {j d} hd => ?_, fun {c} hc => ?_, fun {j gj e} hj he => ?_,
    fun {j gj} hj hidle' => ?_⟩, idle_iff.mpr fun {j gj} hj => ?_, rfl⟩
  · rcases lookup_insert_cases hj with ⟨rfl, rfl⟩ | ⟨hji, hj⟩
    · exact update_self _ _ _
    · exact (update_of_ne hji _ _).trans (h.hosted hj)
  · have hd : update n.db.rangeKey i (some { snap.range with id := i }) j = some d := hd
    by_cases hji : j = i
    · rw [hji, update_self] at hd
      cases hd
      exact hji.symm
    · rw [update_of_ne hji] at hd
      exact h.ident hd
  · left
    have hc : update n.db.rangeKey i (some { snap.range with id := i }) c ≠ none := hc
    apply lookup_insert_ne_none
    by_cases hci : c = i
    · rw [hci, hg]
      simp
    · rw [update_of_ne hci] at hc
      rcases h.described hc with hc | ⟨j, gj, e, hj, he, _⟩
      · exact hc
      · rw [h.idle hj (idle_iff.mp hidle hj)] at he
        cases he
  · rcases lookup_insert_cases hj with ⟨rfl, rfl⟩ | ⟨_, hj⟩
    · have he : g.spawning = some e := he
      rw [hquiet] at he
      cases he
    · rw [h.idle hj (idle_iff.mp hidle hj)] at he
      cases he
  · rcases lookup_insert_cases hj with ⟨rfl, rfl⟩ | ⟨_, hj⟩
    · exact hquiet
    · exact h.idle hj hidle'
  · rcases lookup_insert_cases hj with ⟨rfl, rfl⟩ | ⟨_, hj⟩
    · show g.applying = false
      exact idle_iff.mp hidle hg
    · exact idle_iff.mp hidle hj

end

namespace Host

theorem Ok.boot : Ok {} where
  stored := .bootstrap
  idle := by
    apply idle_iff.mpr
    intro i g hg
    obtain ⟨_, rfl⟩ := eq_of_bootstrap_lookup hg
    rfl
  root := by
    show update (fun _ => none) 1 (some (⟨1, [], []⟩ : RangeDesc)) 1 ≠ none
    rw [update_self]
    simp
  known := by
    intro i hi
    by_contra hne
    have hi : update (fun _ => none) 1 (some (⟨1, [], []⟩ : RangeDesc)) i ≠ none := hi
    rw [update_of_ne (fun heq => hne (by rw [heq]; exact mem_singleton.mpr rfl))] at hi
    exact hi rfl

variable {h : Host}

theorem restart_of_step {h' : Host} (hok : Ok h) {ids : List Nat}
    (hstep : h.step (.restart ids) = some h') :
    Scans h.node.db ids ∧ h' = { h with node := Node.init h.node.db ids } := by
  unfold Host.step at hstep
  dsimp only at hstep
  split at hstep
  · rename_i hids
    refine ⟨fun i => ?_, (Option.some.inj hstep).symm⟩
    constructor
    · intro hi
      exact (hids.2 i (hids.1 i hi)).mp hi
    · intro hi
      exact (hids.2 i (hok.known hi)).mpr hi
  · cases hstep

/-- A settled event keeps groups and stored ranges in agreement. -/
theorem Ok.step {h' : Host} (hok : Ok h) {e : HostEvent} (hset : h.settled e = true)
    (hstep : Host.step h e = some h') : Ok h' := by
  cases e with
  | apply group cmd =>
    unfold Host.step at hstep
    dsimp only at hstep
    split at hstep
    · rename_i hsome
      obtain ⟨g, hg⟩ := isSome_iff_exists.mp hsome
      cases hstep
      have hkeys := hok.stored.rangeKey_applyEntry hg cmd
      refine ⟨?_, idle_applyEntry hok.idle cmd, (hkeys 1).1 hok.root, fun {i} hi => ?_⟩
      · exact (hok.stored.applyBegin hg (idle_iff.mp hok.idle hg) cmd).applyEnd group
      · rcases (hkeys i).2 hi with hi | ⟨x, rfl⟩
        · have hmem := hok.known hi
          show i ∈ (match cmd with | .split childId _ => childId :: h.known | _ => h.known)
          split
          · exact mem_cons_of_mem _ hmem
          · exact hmem
        · exact mem_cons_self
    · cases hstep
  | restore group snap =>
    unfold Host.step at hstep
    dsimp only at hstep
    split at hstep
    · rename_i hsome
      obtain ⟨g, hg⟩ := isSome_iff_exists.mp hsome
      cases hstep
      have hspawns : ∀ e ∈ snap.spawns, h.node.groups.lookup e.id ≠ none := by
        intro e he hnone
        have := all_eq_true.mp hset e he
        rw [hnone] at this
        cases this
      obtain ⟨hstored, hidle, hkeys⟩ := hok.stored.applySnapshot hok.idle hg hspawns
      refine ⟨hstored, hidle, ?_, fun {i} hi => ?_⟩
      · show (h.node.applySnapshot group snap).db.rangeKey 1 ≠ none
        rw [hkeys]
        by_cases hone : 1 = group
        · rw [hone, update_self]
          simp
        · rw [update_of_ne hone]
          exact hok.root
      · have hi : (h.node.applySnapshot group snap).db.rangeKey i ≠ none := hi
        rw [hkeys] at hi
        by_cases higroup : i = group
        · rw [higroup]
          exact mem_cons_self
        · rw [update_of_ne higroup] at hi
          exact mem_cons_of_mem _ (hok.known hi)
    · cases hstep
  | restart ids =>
    obtain ⟨hids, rfl⟩ := restart_of_step hok hstep
    obtain ⟨hstored, hidle⟩ := Stored.init (fun _ _ => hok.stored.ident) hids hok.root
    have hdb := init_db hids hok.root
    refine ⟨hstored, hidle, ?_, fun {i} hi => ?_⟩
    · show (Node.init h.node.db ids).db.rangeKey 1 ≠ none
      rw [hdb]
      exact hok.root
    · have hi : (Node.init h.node.db ids).db.rangeKey i ≠ none := hi
      rw [hdb] at hi
      exact hok.known hi

theorem Ok.run {es : List HostEvent} (hrun : Machine.run Host.step {} es = some h)
    (hset : Machine.Along Host.step (fun h e => h.settled e = true) {} es) : Ok h :=
  Machine.run_induction (fun _ _ _ hok hs hstep => hok.step hs hstep) .boot hset hrun

end Host

/-! ## Restarts. -/

end Flotilla.Server
