/-
  Server.SplitCrash — a crash between the durable writes of a split.

  `ApplySplit` puts three records and `PersistAppliedMarker` a fourth, one at a
  time.  A crash leaves the first `k` of them; the node is opened again and the
  apply loop meets the entry once more, unless its marker is on disk.
-/
import Flotilla.Server.Restart

namespace Flotilla.Server

open Node
open Flotilla.Txn (Key)

/-! ## The writes of an entry. -/

inductive SystemWrite where
  | range (id : Nat) (desc : RangeDesc)
  | spawns (id : Nat) (children : List RangeDesc)
  | applied (id : Nat) (index : Nat)
  deriving DecidableEq

def Db.put (db : Db) : SystemWrite → Db
  | .range id desc => { db with rangeKey := Function.update db.rangeKey id (some desc) }
  | .spawns id children => { db with spawnsKey := Function.update db.spawnsKey id (some children) }
  | .applied id index => { db with appliedKey := Function.update db.appliedKey id (some index) }

/-- The writes of `ApplySplit`, in order. -/
def Group.splitWrites (g : Group) (groupId : Nat) (db : Db) (childId : Nat) (splitKey : Key) :
    List SystemWrite :=
  if ¬ g.range.Contains splitKey ∨ splitKey = g.range.start then []
  else if (db.rangeKey childId).isSome then []
  else
    let child : RangeDesc := ⟨childId, splitKey, g.range.endKey⟩
    [.range childId child, .range g.range.id { g.range with endKey := splitKey },
      .spawns groupId (g.spawned ++ [child])]

theorem Group.applySplit_db (g : Group) (groupId : Nat) (db : Db) (childId : Nat) (splitKey : Key) :
    (g.applySplit groupId db childId splitKey).1 =
      (g.splitWrites groupId db childId splitKey).foldl Db.put db := by
  unfold Group.applySplit Group.splitWrites
  split
  · rfl
  · split <;> rfl

namespace Node

/-- The writes of applying a split: those of `ApplySplit`, then the marker. -/
def splitWrites (n : Node) (groupId childId : Nat) (splitKey : Key) : List SystemWrite :=
  match n.groups.lookup groupId with
  | some g => g.splitWrites groupId n.db childId splitKey ++ [.applied groupId (g.appliedIndex + 1)]
  | none => []

/-- The database after a crash that lets `k` of the writes through. -/
def crashSplit (n : Node) (groupId childId : Nat) (splitKey : Key) (k : Nat) : Db :=
  ((n.splitWrites groupId childId splitKey).take k).foldl Db.put n.db

/-- The apply loop meets the entry with this index. -/
def applyAt (n : Node) (groupId index : Nat) (cmd : Command) : Node :=
  match n.groups.lookup groupId with
  | some g => if index ≤ g.appliedIndex then n else n.applyEntry groupId cmd
  | none => n

end Node

variable {i : Nat} {db : Db}

theorem Node.applyEntry_split_db {n : Node} {g : Group} (hg : n.groups.lookup i = some g) (c : Nat)
    (x : Key) :
    (n.applyEntry i (.split c x)).db = (n.splitWrites i c x).foldl Db.put n.db := by
  have hbegin : (n.applyBegin i (.split c x)).db = (g.applySplit i n.db c x).1 := by
    unfold Node.applyBegin
    rw [hg]
    rfl
  have hlookup : (n.applyBegin i (.split c x)).groups.lookup i =
      some { (g.applySplit i n.db c x).2 with applying := true } := by
    unfold Node.applyBegin
    rw [hg]
    exact AList.lookup_insert _
  have hindex : (g.applySplit i n.db c x).2.appliedIndex = g.appliedIndex := by
    unfold Group.applySplit
    split
    · rfl
    · split <;> rfl
  unfold Node.applyEntry Node.applyEnd Node.splitWrites
  rw [hlookup, hg, foldl_append, ← Group.applySplit_db, ← hbegin]
  dsimp only
  rw [hindex]
  split
  · rw [ensureGroup_db]
    rfl
  · rfl

/-! ## The second application. -/

section

variable {db : Db} {i c : Nat} {d : RangeDesc} {x : Key}

theorem Group.splitWrites_of_free (hident : Named db) (hd : db.rangeKey i = some d)
    (hin : d.Contains x) (hne : x ≠ d.start) (hfree : db.rangeKey c = none) :
    (Group.init db d).splitWrites i db c x =
      [.range c ⟨c, x, d.endKey⟩, .range i { d with endKey := x },
        .spawns i ((db.spawnsKey i).getD [] ++ [⟨c, x, d.endKey⟩])] := by
  have hrange := Group.init_range hident hd
  obtain rfl := hident _ _ hd
  have hspawned : (Group.init db d).spawned = (db.spawnsKey d.id).getD [] := rfl
  have hvalid : ¬ (¬ d.Contains x ∨ x = d.start) := by
    rintro (hout | heq)
    · exact hout hin
    · exact hne heq
  unfold Group.splitWrites
  rw [hrange, hspawned, if_neg hvalid, hfree]
  rfl

theorem Group.splitWrites_of_stale (hident : Named db) (hd : db.rangeKey i = some d)
    (hstale : ¬ d.Contains x ∨ db.rangeKey c ≠ none) :
    (Group.init db d).splitWrites i db c x = [] := by
  unfold Group.splitWrites
  rw [Group.init_range hident hd]
  split
  · rfl
  · rename_i hvalid
    have hsome : (db.rangeKey c).isSome = true := by
      rcases hstale with hout | hsome
      · exact absurd (.inl hout) hvalid
      · exact Option.isSome_iff_ne_none.mpr hsome
    rw [hsome]
    rfl

theorem applyAt_init_db (hident : Named db) {ids : List Nat} (hids : Scans db ids)
    (hd : db.rangeKey i = some d) (index : Nat) :
    ((Node.init db ids).applyAt i index (.split c x)).db =
      if index ≤ (db.appliedKey i).getD 0 then db
      else ((Group.init db d).splitWrites i db c x).foldl Db.put db |>.put
        (.applied i ((db.appliedKey i).getD 0 + 1)) := by
  have hsome : db.rangeKey i ≠ none := by
    rw [hd]
    simp
  have hlookup : (Node.init db ids).groups.lookup i = some (Group.init db d) := by
    rw [init_lookup hident hids hsome, hd]
    rfl
  have hindex : (Group.init db d).appliedIndex = (db.appliedKey i).getD 0 := by
    show (db.appliedKey d.id).getD 0 = _
    rw [hident _ _ hd]
  have hdb := init_db hids hsome
  unfold Node.applyAt
  rw [hlookup]
  dsimp only
  rw [hindex]
  split
  · exact hdb
  · rw [applyEntry_split_db hlookup]
    unfold Node.splitWrites
    rw [hlookup, hdb]
    rw [foldl_append, hindex]
    rfl

end

theorem applyAt_init_stale {c : Nat} {d : RangeDesc} {x : Key} (hident : Named db) {ids : List Nat}
    (hids : Scans db ids) (hd : db.rangeKey i = some d)
    (hstale : ¬ d.Contains x ∨ db.rangeKey c ≠ none) :
    ((Node.init db ids).applyAt i ((db.appliedKey i).getD 0 + 1) (.split c x)).db =
      db.put (.applied i ((db.appliedKey i).getD 0 + 1)) := by
  rw [applyAt_init_db hident hids hd, if_neg (Nat.not_succ_le_self _),
    Group.splitWrites_of_stale hident hd hstale]
  rfl

theorem range?_applyAt_init (hident : Named db) {ids : List Nat} (hids : Scans db ids)
    (hi : db.rangeKey i ≠ none) (index : Nat) (cmd : Command) :
    ((Node.init db ids).applyAt i index cmd).range? =
      ((Node.init db ids).applyAt i index cmd).db.rangeKey := by
  obtain ⟨hstored, hidle⟩ := Stored.init hident hids hi
  unfold Node.applyAt
  split
  · rename_i g hg
    split
    · exact (funext (hstored.rangeKey_eq hidle)).symm
    · have hstored' := (hstored.applyBegin hg (idle_iff.mp hidle hg) cmd).applyEnd i
      exact (funext (hstored'.rangeKey_eq (idle_applyEntry hidle cmd))).symm
  · exact (funext (hstored.rangeKey_eq hidle)).symm

/-! ## Every cut. -/

/-- A descriptor is written under its id. -/
def SystemWrite.Keyed : SystemWrite → Prop
  | .range id desc => desc.id = id
  | .spawns _ _ => True
  | .applied _ _ => True

theorem Named.put (h : Named db) {w : SystemWrite} (hw : w.Keyed) :
    Named (db.put w) := by
  cases w with
  | range j e =>
    intro i d hd
    have hd : update db.rangeKey j (some e) i = some d := hd
    by_cases hi : i = j
    · rw [hi, update_self] at hd
      rw [hi, ← Option.some.inj hd]
      exact hw
    · rw [update_of_ne hi] at hd
      exact h i d hd
  | spawns _ _ | applied _ _ => exact h

theorem Named.foldl_put (h : Named db) {ws : List SystemWrite} (hw : ∀ w ∈ ws, w.Keyed) :
    Named (ws.foldl Db.put db) := by
  induction ws generalizing db with
  | nil => exact h
  | cons w ws ih =>
    exact ih (h.put (hw w mem_cons_self)) (fun w' hw' => hw w' (mem_cons_of_mem w hw'))

theorem Db.foldl_put_described (h : db.rangeKey i ≠ none) (ws : List SystemWrite) :
    (ws.foldl Db.put db).rangeKey i ≠ none := by
  induction ws generalizing db with
  | nil => exact h
  | cons w ws ih =>
    apply ih
    cases w with
    | range j e =>
      show update db.rangeKey j (some e) i ≠ none
      by_cases hi : i = j
      · rw [hi, update_self]
        simp
      · rw [update_of_ne hi]
        exact h
    | spawns _ _ | applied _ _ => exact h

theorem Node.splitWrites_keyed (n : Node) (i c : Nat) (x : Key) :
    ∀ w ∈ n.splitWrites i c x, w.Keyed := by
  intro w hw
  unfold Node.splitWrites Group.splitWrites at hw
  split at hw
  · rcases mem_append.mp hw with hw | hw
    · split at hw
      · exact (not_mem_nil hw).elim
      · split at hw
        · exact (not_mem_nil hw).elim
        · simp only [mem_cons, not_mem_nil, or_false] at hw
          rcases hw with rfl | rfl | rfl
          · rfl
          · rfl
          · trivial
    · rw [mem_singleton.mp hw]
      trivial
  · exact (not_mem_nil hw).elim

theorem Named.crashSplit {n : Node} (h : Named n.db) (i c : Nat) (x : Key) (k : Nat) :
    Named (n.crashSplit i c x k) :=
  h.foldl_put (fun w hw => n.splitWrites_keyed i c x w (mem_of_mem_take hw))

section

variable {n : Node} {i c : Nat} {d : RangeDesc} {x : Key}

theorem Node.splitWrites_eq (hident : Named n.db) (hd : n.db.rangeKey i = some d)
    (hg : n.groups.lookup i = some (Group.init n.db d)) :
    n.splitWrites i c x =
      (Group.init n.db d).splitWrites i n.db c x ++ [.applied i ((n.db.appliedKey i).getD 0 + 1)] := by
  have hindex : (Group.init n.db d).appliedIndex = (n.db.appliedKey i).getD 0 := by
    show (n.db.appliedKey d.id).getD 0 = _
    rw [hident _ _ hd]
  unfold Node.splitWrites
  rw [hg]
  dsimp only
  rw [hindex]

theorem Node.appliedTo_of_init (hident : Named n.db) (hd : n.db.rangeKey i = some d)
    (hg : n.groups.lookup i = some (Group.init n.db d)) :
    n.appliedTo i = (n.db.appliedKey i).getD 0 := by
  rw [appliedTo_of_lookup hg]
  show (n.db.appliedKey d.id).getD 0 = _
  rw [hident _ _ hd]

variable {ids : List Nat}

theorem applyAt_crash_stale (hident : Named n.db) (hd : n.db.rangeKey i = some d)
    (hg : n.groups.lookup i = some (Group.init n.db d)) (hused : n.db.rangeKey c ≠ none) {k : Nat}
    (hids : Scans (n.crashSplit i c x k) ids) :
    ((Node.init (n.crashSplit i c x k) ids).applyAt i (n.appliedTo i + 1) (.split c x)).db =
      (n.applyEntry i (.split c x)).db := by
  have hstale := Group.splitWrites_of_stale hident hd (x := x) (c := c) (.inr hused)
  have hwrites : n.splitWrites i c x = [.applied i ((n.db.appliedKey i).getD 0 + 1)] := by
    rw [splitWrites_eq hident hd hg, hstale]
    rfl
  rw [applyEntry_split_db hg, hwrites, appliedTo_of_init hident hd hg]
  unfold Node.crashSplit at hids ⊢
  rw [hwrites] at hids ⊢
  cases k with
  | zero =>
    have hids : Scans n.db ids := hids
    show ((Node.init n.db ids).applyAt i _ _).db = _
    rw [applyAt_init_db hident hids hd, if_neg (by omega), hstale]
    rfl
  | succ k =>
    rw [take_of_length_le (by simp)] at hids ⊢
    have hident' : Named (n.db.put (.applied i ((n.db.appliedKey i).getD 0 + 1))) := hident
    have hd' : (n.db.put (.applied i ((n.db.appliedKey i).getD 0 + 1))).rangeKey i = some d := hd
    refine (applyAt_init_db hident' hids hd' _).trans (if_pos ?_)
    show _ ≤ (update n.db.appliedKey i _ i).getD 0
    rw [update_self]
    exact le_rfl

theorem Node.splitWrites_of_free (hident : Named n.db) (hd : n.db.rangeKey i = some d)
    (hg : n.groups.lookup i = some (Group.init n.db d)) (hin : d.Contains x) (hne : x ≠ d.start)
    (hfree : n.db.rangeKey c = none) :
    n.splitWrites i c x =
      [.range c ⟨c, x, d.endKey⟩, .range i { d with endKey := x },
        .spawns i ((n.db.spawnsKey i).getD [] ++ [⟨c, x, d.endKey⟩]),
        .applied i ((n.db.appliedKey i).getD 0 + 1)] := by
  rw [splitWrites_eq hident hd hg, Group.splitWrites_of_free hident hd hin hne hfree]
  rfl

theorem not_contains_cut (hin : d.Contains x) (hne : x ≠ d.start) :
    ¬ ({ d with endKey := x } : RangeDesc).Contains x := by
  rintro ⟨_, hnil | hlt⟩
  · have hnil : x = [] := hnil
    rw [hnil] at hin hne
    exact hne (le_antisymm (le_of_not_gt (not_lt_nil _)) hin.1)
  · exact absurd hlt (lt_irrefl x)

section

variable (hident : Named n.db) (hd : n.db.rangeKey i = some d)
  (hg : n.groups.lookup i = some (Group.init n.db d)) (hin : d.Contains x) (hne : x ≠ d.start)
  (hfree : n.db.rangeKey c = none)

include hident hd hg hin hne hfree

theorem rangeKey_crashSplit (k : Nat) :
    (n.crashSplit i c x (k + 2)).rangeKey i = some { d with endKey := x } := by
  unfold Node.crashSplit
  rw [Node.splitWrites_of_free hident hd hg hin hne hfree]
  match k with
  | 0 | 1 => exact update_self _ _ _
  | k + 2 =>
    rw [take_of_length_le (by simp)]
    exact update_self _ _ _

theorem applyAt_crash_first (hids : Scans (n.crashSplit i c x 1) ids) :
    ((Node.init (n.crashSplit i c x 1) ids).applyAt i (n.appliedTo i + 1)
      (.split c x)).db.rangeKey i = some d := by
  have hdb : n.crashSplit i c x 1 = n.db.put (.range c ⟨c, x, d.endKey⟩) := by
    unfold Node.crashSplit
    rw [Node.splitWrites_of_free hident hd hg hin hne hfree]
    rfl
  have hic : i ≠ c := by
    rintro rfl
    rw [hd] at hfree
    cases hfree
  have hd' : (n.db.put (.range c ⟨c, x, d.endKey⟩)).rangeKey i = some d :=
    (update_of_ne hic _ _).trans hd
  have hident' := hident.crashSplit i c x 1
  have hchild : (n.db.put (.range c ⟨c, x, d.endKey⟩)).rangeKey c ≠ none := by
    show update n.db.rangeKey c _ c ≠ none
    rw [update_self]
    simp
  rw [hdb] at hids hident' ⊢
  have hagain := applyAt_init_stale (x := x) hident' hids hd' (.inr hchild)
  rw [appliedTo_of_init hident hd hg]
  exact (congrFun (congrArg Db.rangeKey hagain) i).trans hd'

theorem applyAt_crash_second (hids : Scans (n.crashSplit i c x 2) ids) :
    ((Node.init (n.crashSplit i c x 2) ids).applyAt i (n.appliedTo i + 1)
      (.split c x)).db.spawnsKey = n.db.spawnsKey := by
  have hwrites := Node.splitWrites_of_free hident hd hg hin hne hfree
  have happlied : (n.crashSplit i c x 2).appliedKey = n.db.appliedKey := by
    unfold Node.crashSplit
    rw [hwrites]
    rfl
  have hagain := applyAt_init_stale (c := c) (hident.crashSplit i c x 2) hids
    (rangeKey_crashSplit hident hd hg hin hne hfree 0) (.inl (not_contains_cut hin hne))
  rw [appliedTo_of_init hident hd hg, ← happlied, hagain]
  unfold Node.crashSplit
  rw [hwrites]
  rfl

theorem applyAt_crash_done {k : Nat} (hk : k ≠ 1 ∧ k ≠ 2)
    (hids : Scans (n.crashSplit i c x k) ids) :
    ((Node.init (n.crashSplit i c x k) ids).applyAt i (n.appliedTo i + 1) (.split c x)).db =
      (n.applyEntry i (.split c x)).db := by
  have hwrites := Node.splitWrites_of_free hident hd hg hin hne hfree
  have hcut := rangeKey_crashSplit hident hd hg hin hne hfree
  rw [applyEntry_split_db hg, appliedTo_of_init hident hd hg]
  match k, hk with
  | 0, _ =>
    have hids : Scans n.db ids := hids
    show ((Node.init n.db ids).applyAt i _ _).db = _
    rw [applyAt_init_db hident hids hd, if_neg (Nat.not_succ_le_self _),
      Group.splitWrites_of_free hident hd hin hne hfree, hwrites]
    rfl
  | 1, hk => exact absurd rfl hk.1
  | 2, hk => exact absurd rfl hk.2
  | 3, _ =>
    -- all three records are there: the second application finds the range cut
    have happlied : (n.crashSplit i c x 3).appliedKey = n.db.appliedKey := by
      unfold Node.crashSplit
      rw [hwrites]
      rfl
    have hagain := applyAt_init_stale (c := c) (hident.crashSplit i c x 3) hids (hcut 1)
      (.inl (not_contains_cut hin hne))
    rw [← happlied, hagain, happlied]
    unfold Node.crashSplit
    rw [hwrites]
    rfl
  | k + 4, _ =>
    -- the marker is there too: the entry is skipped
    have hdb : n.crashSplit i c x (k + 4) = (((n.db.put (.range c ⟨c, x, d.endKey⟩)).put
        (.range i { d with endKey := x })).put
          (.spawns i ((n.db.spawnsKey i).getD [] ++ [⟨c, x, d.endKey⟩]))).put
            (.applied i ((n.db.appliedKey i).getD 0 + 1)) := by
      unfold Node.crashSplit
      rw [hwrites, take_of_length_le (by simp)]
      rfl
    have hident' := hident.crashSplit i c x (k + 4)
    have happlied : (n.crashSplit i c x (k + 4)).appliedKey i =
        some ((n.db.appliedKey i).getD 0 + 1) := by
      rw [hdb]
      exact update_self _ _ _
    rw [applyAt_init_db hident' hids (hcut (k + 2)), happlied, getD_some,
      if_pos le_rfl, hdb, hwrites]
    rfl

theorem rangeKey_applyEntry_split :
    (n.applyEntry i (.split c x)).db.rangeKey = cutAt n.db.rangeKey i d c x ∧
      (n.applyEntry i (.split c x)).db.spawnsKey i =
        some ((n.db.spawnsKey i).getD [] ++ [⟨c, x, d.endKey⟩]) := by
  have hic : i ≠ c := by
    rintro rfl
    rw [hd] at hfree
    cases hfree
  rw [applyEntry_split_db hg, Node.splitWrites_of_free hident hd hg hin hne hfree]
  refine ⟨?_, update_self _ _ _⟩
  show update (update n.db.rangeKey c _) i _ = _
  unfold cutAt
  exact Function.update_comm (Ne.symm hic) _ _ _

end

theorem Partition.applyEntry_split (hpart : Partition n.db.rangeKey) (hident : Named n.db)
    (hd : n.db.rangeKey i = some d) (hg : n.groups.lookup i = some (Group.init n.db d))
    (hin : d.Contains x) (hne : x ≠ d.start) :
    Partition (n.applyEntry i (.split c x)).db.rangeKey := by
  cases hfree : n.db.rangeKey c with
  | none =>
    rw [(rangeKey_applyEntry_split hident hd hg hin hne hfree).1]
    exact hpart.split hd hin hne hfree
  | some e =>
    have hused : n.db.rangeKey c ≠ none := by
      rw [hfree]
      simp
    rw [applyEntry_split_db hg, splitWrites_eq hident hd hg,
      Group.splitWrites_of_stale hident hd (.inr hused)]
    exact hpart

end

/-- **A split is applied again after a crash**: for every node whose descriptors partition the key
space, every split inside a range and every cut between the durable writes, opening the node again
and applying the entry from the log gives the descriptors and the spawn list of an application
without a crash, and ranges that partition the key space, if and only if the split does nothing or
the cut is neither after the first nor after the second write. -/
theorem split_replay_iff {n : Node} {i c k : Nat} {d : RangeDesc} {x : Key} {ids : List Nat}
    (hpart : Partition n.db.rangeKey) (hident : Named n.db) (hd : n.db.rangeKey i = some d)
    (hg : n.groups.lookup i = some (Group.init n.db d)) (hin : d.Contains x) (hne : x ≠ d.start)
    (hids : Scans (n.crashSplit i c x k) ids) :
    let whole := n.applyEntry i (.split c x)
    let again := (Node.init (n.crashSplit i c x k) ids).applyAt i (n.appliedTo i + 1) (.split c x)
    (again.db.rangeKey i = whole.db.rangeKey i ∧ again.db.rangeKey c = whole.db.rangeKey c ∧
      again.db.spawnsKey i = whole.db.spawnsKey i ∧ Partition again.range?) ↔
      (n.db.rangeKey c = none → k ≠ 1 ∧ k ≠ 2) := by
  intro whole again
  constructor
  · rintro ⟨hparent, _, hspawns, _⟩ hfree
    obtain ⟨hkeys, hlist⟩ := rangeKey_applyEntry_split hident hd hg hin hne hfree
    constructor
    · rintro rfl
      have hold : again.db.rangeKey i = some d :=
        applyAt_crash_first hident hd hg hin hne hfree hids
      have hic : i ≠ c := by
        rintro rfl
        rw [hd] at hfree
        cases hfree
      rw [hold, hkeys, cutAt_parent hic] at hparent
      -- the parent would contain the split key
      exact not_contains_cut hin hne (Option.some.inj hparent ▸ hin)
    · rintro rfl
      have hold : again.db.spawnsKey = n.db.spawnsKey :=
        applyAt_crash_second hident hd hg hin hne hfree hids
      rw [hold, hlist] at hspawns
      rw [hspawns] at hspawns
      have := congrArg List.length (Option.some.inj hspawns)
      simp at this
  · intro hsafe
    have hdb : again.db = whole.db := by
      by_cases hfree : n.db.rangeKey c = none
      · exact applyAt_crash_done hident hd hg hin hne hfree (hsafe hfree) hids
      · exact applyAt_crash_stale hident hd hg hfree hids
    have hrange : again.range? = again.db.rangeKey :=
      range?_applyAt_init (hident.crashSplit i c x k) hids
        (Db.foldl_put_described (by rw [hd]; simp) _) _ _
    rw [hrange, hdb]
    exact ⟨rfl, rfl, rfl, hpart.applyEntry_split hident hd hg hin hne⟩

/-! ## A new node split at "m". -/

theorem splitWrites_bootstrap : Node.bootstrap.splitWrites 1 2 [109] =
    [.range 2 ⟨2, [109], []⟩, .range 1 ⟨1, [], [109]⟩, .spawns 1 [⟨2, [109], []⟩],
      .applied 1 1] := by decide +kernel

theorem lookup_bootstrap_root :
    Node.bootstrap.groups.lookup 1 = some (Group.init Node.bootstrap.db ⟨1, [], []⟩) := by
  rw [bootstrap_lookup]
  rfl

theorem named_bootstrap : Named Node.bootstrap.db := by
  intro i d hd
  obtain ⟨rfl, rfl⟩ := eq_of_bootstrap_rangeKey hd
  rfl

theorem scans_bootstrap {k : Nat} (hk : k = 1 ∨ k = 3) :
    Scans (Node.bootstrap.crashSplit 1 2 [109] k) [1, 2] := by
  intro i
  have hkeys : (Node.bootstrap.crashSplit 1 2 [109] k).rangeKey i ≠ none ↔ i = 1 ∨ i = 2 := by
    unfold Node.crashSplit
    rw [splitWrites_bootstrap]
    rcases hk with rfl | rfl <;> by_cases hone : i = 1 <;>
      by_cases htwo : i = 2 <;>
      simp [Db.put, bootstrap_rangeKey, hone, htwo]
  rw [hkeys]
  simp

/-- The crash comes before the marker. -/
theorem split_replay_iff_unmarked :
    let again := (Node.init (Node.bootstrap.crashSplit 1 2 [109] 3) [1, 2]).applyAt 1
      (Node.bootstrap.appliedTo 1 + 1) (.split 2 [109])
    Scans (Node.bootstrap.crashSplit 1 2 [109] 3) [1, 2] ∧
      again.db.spawnsKey 1 = (Node.bootstrap.applyEntry 1 (.split 2 [109])).db.spawnsKey 1 ∧
      Partition again.range? := by
  intro again
  have h := (split_replay_iff .bootstrap named_bootstrap rfl lookup_bootstrap_root
    (by decide) (by decide) (scans_bootstrap (.inr rfl))).mpr (fun _ => by decide)
  exact ⟨scans_bootstrap (.inr rfl), h.2.2.1, h.2.2.2⟩

/-- The crash comes after `RangeKey` of the child is written: the second application takes the
split for a replay, and groups 1 and 2 both own the keys from "m" on. -/
theorem split_replay_overlaps :
    let whole := Node.bootstrap.applyEntry 1 (.split 2 [109])
    let again := (Node.init (Node.bootstrap.crashSplit 1 2 [109] 1) [1, 2]).applyAt 1
      (Node.bootstrap.appliedTo 1 + 1) (.split 2 [109])
    Partition Node.bootstrap.db.rangeKey ∧
      Scans (Node.bootstrap.crashSplit 1 2 [109] 1) [1, 2] ∧
      whole.db.rangeKey 1 = some ⟨1, [], [109]⟩ ∧ whole.db.rangeKey 2 = some ⟨2, [109], []⟩ ∧
      again.db.rangeKey 1 = some ⟨1, [], []⟩ ∧ again.db.rangeKey 2 = some ⟨2, [109], []⟩ ∧
      again.db.spawnsKey 1 = none ∧ ¬ Partition again.range? := by
  intro whole again
  have hrange : again.range? 1 = some ⟨1, [], []⟩ ∧ again.range? 2 = some ⟨2, [109], []⟩ := by
    decide +kernel
  refine ⟨.bootstrap, scans_bootstrap (.inl rfl), by decide +kernel, by decide +kernel, by decide +kernel,
    by decide +kernel, by decide +kernel, fun hpart => ?_⟩
  have hin : (⟨1, [], []⟩ : RangeDesc).Contains [122] := by decide
  have hin' : (⟨2, [109], []⟩ : RangeDesc).Contains [122] := by decide
  cases hpart.apart hrange.1 hrange.2 hin hin'

end Flotilla.Server
