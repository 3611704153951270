/-
  Server.CatchUp — snapshot catch-up against log replay, across a split.

  A replica that stopped at `stop` restores the parent's snapshot and learns of
  the child from its spawn list.  The snapshot holds the pairs of the shrunk
  parent range only, so in the child's range the replica keeps what it had at
  `stop`.
-/
import Flotilla.Server.Groups

namespace Flotilla.Server

open Flotilla.Txn (Key Store)

/-! ## Pairs of one key. -/

/-- The three columns of a key agree. -/
def SameRecords (db db' : Store) (key : Key) : Prop :=
  db.lock key = db'.lock key ∧ db.writes key = db'.writes key ∧ db.data key = db'.data key

variable {db db' : Store} {key : Key} {g : Group} {i : Nat} {n : Node}

theorem SameRecords.apply (h : SameRecords db db' key) (w : Txn.DbWrite) :
    SameRecords (db.apply w) (db'.apply w) key := by
  obtain ⟨hl, hw, hd⟩ := h
  unfold SameRecords
  cases w <;> simp only [Store.apply] <;> grind [update_apply]

theorem SameRecords.foldl (h : SameRecords db db' key) (ws : List Txn.DbWrite) :
    SameRecords (ws.foldl Store.apply db) (ws.foldl Store.apply db') key := by
  induction ws generalizing db db' with
  | nil => exact h
  | cons w ws ih => exact ih (h.apply w)

theorem SameRecords.exec (h : SameRecords db db' key) (cmd : Txn.Command) :
    SameRecords (db.exec cmd) (db'.exec cmd) key := by
  by_cases hkey : key = cmd.key
  · -- the command reads the lock and the writes of its own key only
    have hsame : cmd.apply db = cmd.apply db' := by
      obtain ⟨hl, hw, _⟩ := h
      rw [hkey] at hl hw
      cases cmd with
      | prewrite =>
        simp only [Txn.Command.apply, Store.applyPrewrite, Txn.Command.key] at hl hw ⊢
        rw [hl, hw]
      | commit =>
        simp only [Txn.Command.apply, Store.applyCommit, Txn.Command.key] at hl hw ⊢
        rw [hl, hw]
      | rollback =>
        simp only [Txn.Command.apply, Store.applyRollback, Txn.Command.key] at hl hw ⊢
        rw [hl, hw]
    unfold Store.exec
    rw [hsame]
    exact h.foldl _
  · obtain ⟨hl, hw, hd⟩ := h
    obtain ⟨hl₁, hw₁, hd₁⟩ := db.exec_of_ne hkey
    obtain ⟨hl₂, hw₂, hd₂⟩ := db'.exec_of_ne hkey
    exact ⟨hl₁.trans (hl.trans hl₂.symm), hw₁.trans (hw.trans hw₂.symm),
      hd₁.trans (hd.trans hd₂.symm)⟩

theorem cell_applyCommand_congr {g' : Group} {i' : Nat} {db db' : Db}
    (h : db.pairs.cell key = db'.pairs.cell key) (cmd : Command) :
    (g.applyCommand i db cmd).1.pairs.cell key = (g'.applyCommand i' db' cmd).1.pairs.cell key := by
  -- a split leaves all pairs alone
  have hsplit : ∀ (g : Group) (i : Nat) (db : Db) (c : Nat) (k : Key),
      (g.applySplit i db c k).1.pairs = db.pairs := by
    intro g i db c k
    unfold Group.applySplit
    split
    · rfl
    · split <;> rfl
  have hraw : db.pairs.raw key = db'.pairs.raw key := congrArg Cell.raw h
  have hrec : SameRecords db.pairs.txn db'.pairs.txn key :=
    ⟨congrArg Cell.lock h, congrArg Cell.writes h, congrArg Cell.data h⟩
  obtain ⟨hl, hw, hd⟩ := id hrec
  cases cmd with
  | noop | tsTick => exact h
  | split c k =>
    show (g.applySplit i db c k).1.pairs.cell key = (g'.applySplit i' db' c k).1.pairs.cell key
    rw [hsplit, hsplit]
    exact h
  | put k v =>
    simp only [Group.applyCommand, Pairs.cell, update_apply, hraw, hl, hw, hd]
  | delete k =>
    simp only [Group.applyCommand, Pairs.cell, update_apply, hraw, hl, hw, hd]
  | txn cmd =>
    obtain ⟨hl', hw', hd'⟩ := hrec.exec cmd
    simp only [Group.applyCommand, Pairs.cell, hraw, hl', hw', hd']

/-! ## Nodes that host a group. -/

def Node.Hosts (n : Node) (groupId : Nat) : Prop := ∃ g, n.groups.lookup groupId = some g

namespace Node

theorem ensureGroup_hosts (n : Node) (range : RangeDesc) : (n.ensureGroup range).Hosts range.id :=
  ne_none_iff_exists'.mp (n.lookup_ensureGroup_self range)

theorem foldl_ensureGroup_hosts {n : Node} {spawns : List RangeDesc} {i : Nat}
    (h : n.Hosts i ∨ ∃ d ∈ spawns, d.id = i) : (spawns.foldl ensureGroup n).Hosts i := by
  induction spawns generalizing n with
  | nil =>
    rcases h with h | ⟨d, hd, _⟩
    · exact h
    · cases hd
  | cons d spawns ih =>
    apply ih
    rcases h with ⟨g, hg⟩ | ⟨d', hd', rfl⟩
    · exact .inl ⟨g, lookup_ensureGroup_of_some hg d⟩
    · rcases mem_cons.mp hd' with rfl | hd'
      · exact .inl (ensureGroup_hosts n d')
      · exact .inr ⟨d', hd', rfl⟩

section

variable {n : Node} {i : Nat} {g : Group}

theorem applyEntry_lookup (h : n.groups.lookup i = some g) (cmd : Command) :
    (n.applyEntry i cmd).groups.lookup i =
      some { (g.applyCommand i n.db cmd).2 with
        appliedIndex := (g.applyCommand i n.db cmd).2.appliedIndex + 1
        applying := false
        spawning := none } := by
  unfold applyEntry applyBegin applyEnd
  rw [h]
  simp only [AList.lookup_insert]

theorem applyEntry_pairs (h : n.groups.lookup i = some g) (cmd : Command) :
    (n.applyEntry i cmd).db.pairs = (g.applyCommand i n.db cmd).1.pairs := by
  unfold applyEntry applyBegin applyEnd
  rw [h]
  simp only [AList.lookup_insert]
  split <;> simp

theorem applyEntry_hosts (h : n.groups.lookup i = some g) (cmd : Command) {j : Nat}
    (hj : n.Hosts j ∨ ∃ child, (g.applyCommand i n.db cmd).2.spawning = some child ∧ child.id = j) :
    (n.applyEntry i cmd).Hosts j := by
  by_cases hij : j = i
  · rw [hij]
    exact ⟨_, applyEntry_lookup h cmd⟩
  · unfold applyEntry applyBegin applyEnd
    rw [h]
    simp only [AList.lookup_insert]
    unfold Hosts
    simp only [AList.lookup_insert_ne hij]
    rcases hj with ⟨g', hg'⟩ | ⟨child, hchild, rfl⟩
    · have hkept : (n.groups.insert i { (g.applyCommand i n.db cmd).2 with applying := true }).lookup
          j = some g' := by
        rw [AList.lookup_insert_ne hij]
        exact hg'
      split
      · exact ⟨g', lookup_ensureGroup_of_some hkept _⟩
      · exact ⟨g', hkept⟩
    · rw [hchild]
      exact ensureGroup_hosts _ child

end

theorem cell_applyLog_congr {n n' : Node} {i : Nat} {key : Key} (hn : n.Hosts i)
    (hn' : n'.Hosts i) (h : n.db.pairs.cell key = n'.db.pairs.cell key) (log : List Command) :
    (n.applyLog i log).db.pairs.cell key = (n'.applyLog i log).db.pairs.cell key := by
  induction log generalizing n n' with
  | nil => exact h
  | cons cmd log ih =>
    obtain ⟨g, hg⟩ := hn
    obtain ⟨g', hg'⟩ := hn'
    apply ih
    · exact ⟨_, applyEntry_lookup hg cmd⟩
    · exact ⟨_, applyEntry_lookup hg' cmd⟩
    · rw [applyEntry_pairs hg, applyEntry_pairs hg']
      exact cell_applyCommand_congr h cmd

end Node

/-! ## Splits move the end of the range. -/

theorem Group.applySplit_cases (g : Group) (i : Nat) (db : Db) (childId : Nat) (key : Key) :
    (g.applySplit i db childId key).2 = g ∨
      (g.range.Contains key ∧ key ≠ g.range.start ∧ db.rangeKey childId = none ∧
        (g.applySplit i db childId key).2 =
          { g with
            range := { g.range with endKey := key }
            spawned := g.spawned ++ [⟨childId, key, g.range.endKey⟩]
            spawning := some ⟨childId, key, g.range.endKey⟩ }) := by
  unfold Group.applySplit
  split
  · exact .inl rfl
  · rename_i hin
    obtain ⟨hcontains, hne⟩ := not_or.mp hin
    split
    · exact .inl rfl
    · rename_i hprobe
      refine .inr ⟨not_not.mp hcontains, hne, ?_, rfl⟩
      exact Option.not_isSome_iff_eq_none.mp hprobe

theorem ne_nil_of_lt {a b : Key} (h : a < b) : b ≠ [] := by
  rintro rfl
  exact not_lt_nil a h

/-- The children of a group lie beyond its range, on a node that hosts them. -/
structure ParentOk (n : Node) (i : Nat) (g : Group) : Prop where
  lookup : n.groups.lookup i = some g
  idle : g.spawning = none
  beyond : ∀ d ∈ g.spawned, g.range.endKey ≠ [] ∧ g.range.endKey ≤ d.start
  hosted : ∀ d ∈ g.spawned, n.Hosts d.id

theorem ParentOk.applyEntry (h : ParentOk n i g) (cmd : Command) :
    ∃ g', ParentOk (n.applyEntry i cmd) i g' := by
  refine ⟨_, Node.applyEntry_lookup h.lookup cmd, rfl, fun d hd => ?_, fun d hd => ?_⟩
  · have hstay : (g.applyCommand i n.db cmd).2 = g → d ∈ (g.applyCommand i n.db cmd).2.spawned →
        (g.applyCommand i n.db cmd).2.range.endKey ≠ [] ∧
          (g.applyCommand i n.db cmd).2.range.endKey ≤ d.start := by
      intro heq hd
      rw [heq] at hd ⊢
      exact h.beyond d hd
    have hd : d ∈ (g.applyCommand i n.db cmd).2.spawned := hd
    show (g.applyCommand i n.db cmd).2.range.endKey ≠ [] ∧
      (g.applyCommand i n.db cmd).2.range.endKey ≤ d.start
    cases cmd with
    | split c k =>
      rcases g.applySplit_cases i n.db c k with heq | ⟨hin, hne, _, heq⟩
      · exact hstay heq hd
      · have hlt : g.range.start < k := lt_of_le_of_ne hin.1 (fun heq => hne heq.symm)
        have heq : (g.applyCommand i n.db (.split c k)).2 = _ := heq
        rw [heq] at hd ⊢
        refine ⟨ne_nil_of_lt hlt, ?_⟩
        rcases mem_append.mp hd with hd | hd
        · -- an older child starts at or after the old end, which lies after the split key
          obtain ⟨hend, hle⟩ := h.beyond d hd
          exact le_of_lt (lt_of_lt_of_le (hin.2.resolve_left hend) hle)
        · rw [mem_singleton.mp hd]
    | noop | put k v | delete k | txn cmd | tsTick => exact hstay rfl hd
  · have hd : d ∈ (g.applyCommand i n.db cmd).2.spawned := hd
    apply Node.applyEntry_hosts h.lookup
    have hstay : (g.applyCommand i n.db cmd).2 = g → d ∈ (g.applyCommand i n.db cmd).2.spawned →
        n.Hosts d.id := by
      intro heq hd
      rw [heq] at hd
      exact h.hosted d hd
    cases cmd with
    | split c k =>
      rcases g.applySplit_cases i n.db c k with heq | ⟨_, _, _, heq⟩
      · exact .inl (hstay heq hd)
      · have heq : (g.applyCommand i n.db (.split c k)).2 = _ := heq
        rw [heq] at hd ⊢
        rcases mem_append.mp hd with hd | hd
        · exact .inl (h.hosted d hd)
        · rw [mem_singleton.mp hd]
          exact .inr ⟨_, rfl, rfl⟩
    | noop | put k v | delete k | txn cmd | tsTick => exact .inl (hstay rfl hd)

theorem ParentOk.applyLog (h : ParentOk n i g) (log : List Command) :
    ∃ g', ParentOk (n.applyLog i log) i g' := by
  induction log generalizing n g with
  | nil => exact ⟨g, h⟩
  | cons cmd log ih =>
    obtain ⟨g', hg'⟩ := h.applyEntry cmd
    exact ih hg'

/-! ## The two ways to the child's first entry. -/

/-- A replica that hosts the parent group only, over the pairs `base`. -/
def replica (parent : RangeDesc) (base : Pairs) : Node :=
  let db : Db := { pairs := base, rangeKey := Function.update (fun _ => none) parent.id (some parent) }
  Node.ensureGroup { db := db } parent

/-- It applies the whole parent log, then the child's log. -/
def replay (parent : RangeDesc) (base : Pairs) (log : List Command) (childId : Nat)
    (childLog : List Command) : Node :=
  ((replica parent base).applyLog parent.id log).applyLog childId childLog

/-- It stops after `stop` entries, restores the snapshot that another replica took at the end of
the log, and then applies the child's log. -/
def catchUp (parent : RangeDesc) (base : Pairs) (log : List Command) (stop : Nat) (childId : Nat)
    (childLog : List Command) : Option Node :=
  (((replica parent base).applyLog parent.id log).serializeStateMachine parent.id).map fun snap =>
    (((replica parent base).applyLog parent.id (log.take stop)).applySnapshot parent.id
      snap).applyLog childId childLog

/-- The children that the parent's log spawns. -/
def spawnedBy (parent : RangeDesc) (base : Pairs) (log : List Command) : List RangeDesc :=
  match ((replica parent base).applyLog parent.id log).groups.lookup parent.id with
  | some g => g.spawned
  | none => []

theorem replica_ok (parent : RangeDesc) (base : Pairs) :
    ∃ g, ParentOk (replica parent base) parent.id g := by
  refine ⟨Group.init (replica parent base).db parent, ?_, rfl, ?_, ?_⟩
  · unfold replica Node.ensureGroup
    exact AList.lookup_insert _
  · intro d hd
    have hnone : (replica parent base).db.spawnsKey parent.id = none := by
      unfold replica
      rw [Node.ensureGroup_db]
    unfold Group.init at hd
    rw [hnone] at hd
    cases hd
  · intro d hd
    have hnone : (replica parent base).db.spawnsKey parent.id = none := by
      unfold replica
      rw [Node.ensureGroup_db]
    unfold Group.init at hd
    rw [hnone] at hd
    cases hd

theorem cell_applySnapshot (h : n.groups.lookup i = some g) {snap : Node.Snapshot}
    (hkey : ¬ snap.range.Contains key) :
    (n.applySnapshot i snap).db.pairs.cell key = n.db.pairs.cell key := by
  unfold Node.applySnapshot
  rw [h]
  rw [Node.foldl_ensureGroup_db]
  have hout : ¬ ({ snap.range with id := i } : RangeDesc).Contains key := hkey
  simp only [Pairs.cell, Pairs.overlay, if_neg hout]

theorem applySnapshot_hosts (h : n.groups.lookup i = some g) {snap : Node.Snapshot} {d : RangeDesc}
    (hd : d ∈ snap.spawns) :
    (n.applySnapshot i snap).Hosts d.id := by
  unfold Node.applySnapshot
  rw [h]
  exact Node.foldl_ensureGroup_hosts (.inr ⟨d, hd, rfl⟩)

/-- **Catch-up equals replay** in the child's range, for every child log, exactly if the parent
entries that the replica skipped leave the pairs of that range as they were. -/
theorem catch_up_iff (parent : RangeDesc) (base : Pairs) (log : List Command) (stop : Nat)
    {child : RangeDesc} (hchild : child ∈ spawnedBy parent base log) :
    (∀ childLog key, child.Contains key →
      (catchUp parent base log stop child.id childLog).map (fun n => n.db.pairs.cell key) =
        some ((replay parent base log child.id childLog).db.pairs.cell key)) ↔
    ∀ key, child.Contains key →
      ((replica parent base).applyLog parent.id (log.take stop)).db.pairs.cell key =
        ((replica parent base).applyLog parent.id log).db.pairs.cell key := by
  obtain ⟨g₀, h₀⟩ := replica_ok parent base
  obtain ⟨g, hg⟩ := h₀.applyLog log
  obtain ⟨gs, hgs⟩ := h₀.applyLog (log.take stop)
  unfold spawnedBy at hchild
  rw [hg.lookup] at hchild
  -- the restored replica, before the child's log
  obtain ⟨restored, hrestored⟩ : ∃ n, n =
      ((replica parent base).applyLog parent.id (log.take stop)).applySnapshot parent.id
        ⟨g.appliedIndex, g.range, g.spawned,
          Pairs.overlay {} g.range ((replica parent base).applyLog parent.id log).db.pairs⟩ :=
    ⟨_, rfl⟩
  have hcatch : ∀ childLog, catchUp parent base log stop child.id childLog =
      some (restored.applyLog child.id childLog) := by
    intro childLog
    unfold catchUp Node.serializeStateMachine
    rw [hg.lookup, hrestored]
    rfl
  have hcell : ∀ key, child.Contains key → restored.db.pairs.cell key =
      ((replica parent base).applyLog parent.id (log.take stop)).db.pairs.cell key := by
    intro key hkey
    rw [hrestored]
    apply cell_applySnapshot hgs.lookup
    -- the child's range starts where the shrunk parent range ends
    rintro ⟨_, hend⟩
    obtain ⟨hne, hle⟩ := hg.beyond child hchild
    exact absurd (lt_of_lt_of_le (hend.resolve_left hne) hle) (not_lt_of_ge hkey.1)
  have hhosts : restored.Hosts child.id := by
    rw [hrestored]
    exact applySnapshot_hosts hgs.lookup hchild
  constructor
  · intro h key hkey
    have hnil := h [] key hkey
    rw [hcatch] at hnil
    rw [← hcell key hkey]
    exact Option.some.inj hnil
  · intro h childLog key hkey
    rw [hcatch]
    show some _ = some _
    congr 1
    apply Node.cell_applyLog_congr hhosts (hg.hosted child hchild)
    rw [hcell key hkey]
    exact h key hkey

/-- The whole key space, with nothing in it. -/
def everything : RangeDesc := ⟨1, [], []⟩

def splitAtM : Command := .split 2 [109]

/-- The replica missed the split but none of the writes to the child's range: it catches up. -/
theorem catch_up_after_writes :
    (⟨2, [109], []⟩ : RangeDesc) ∈ spawnedBy everything {} [.put [122] [1], splitAtM] ∧
      ∀ childLog key, (⟨2, [109], []⟩ : RangeDesc).Contains key →
        (catchUp everything {} [.put [122] [1], splitAtM] 1 2 childLog).map
            (fun n => n.db.pairs.cell key) =
          some ((replay everything {} [.put [122] [1], splitAtM] 2 childLog).db.pairs.cell key) := by
  have hchild : (⟨2, [109], []⟩ : RangeDesc) ∈ spawnedBy everything {} [.put [122] [1], splitAtM] := by
    decide +kernel
  refine ⟨hchild, (catch_up_iff everything {} [.put [122] [1], splitAtM] 1 hchild).mpr ?_⟩
  intro key _
  rfl

/-- The replica missed the write of "z" and the split: after the restore "z" is not there. -/
theorem catch_up_loses_write :
    (⟨2, [109], []⟩ : RangeDesc) ∈ spawnedBy everything {} [.put [122] [1], splitAtM] ∧
      (⟨2, [109], []⟩ : RangeDesc).Contains [122] ∧
      (catchUp everything {} [.put [122] [1], splitAtM] 0 2 []).map
          (fun n => n.db.pairs.cell [122]) ≠
        some ((replay everything {} [.put [122] [1], splitAtM] 2 []).db.pairs.cell [122]) := by
  refine ⟨by decide +kernel, by decide, fun h => ?_⟩
  have hraw := congrArg (Option.map Cell.raw) h
  rw [Option.map_map] at hraw
  revert hraw
  decide +kernel

end Flotilla.Server
