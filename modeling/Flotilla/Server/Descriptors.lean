/-
  Server.Descriptors — the durable descriptors of a node against its
  groups.

  A split writes `RangeKey` records in `ApplySplit` and creates the group of the
  child in the host callback.  `Stored` is how far the two may be apart: a
  descriptor without a group is that of a child whose host callback is due.
-/
import Flotilla.Server.Groups
import Flotilla.Server.Ranges

namespace Flotilla.Server

open Flotilla.Txn (Key)

/-! ## What one entry writes. -/

theorem Group.applyCommand_spec (g : Group) (i : Nat) (db : Db) (cmd : Command) :
    ((g.applyCommand i db cmd).2 = g ∧ (g.applyCommand i db cmd).1.rangeKey = db.rangeKey ∧
      (g.applyCommand i db cmd).1.appliedKey = db.appliedKey ∧
      (g.range.shrink cmd = g.range ∨ ∃ c x, cmd = .split c x ∧ db.rangeKey c ≠ none)) ∨
    (∃ c x, cmd = .split c x ∧ db.rangeKey c = none ∧ g.range.Contains x ∧ x ≠ g.range.start ∧
      (g.applyCommand i db cmd).2 =
        { g with
          range := { g.range with endKey := x }
          spawned := g.spawned ++ [⟨c, x, g.range.endKey⟩]
          spawning := some ⟨c, x, g.range.endKey⟩ } ∧
      (g.applyCommand i db cmd).1.rangeKey = update
        (update db.rangeKey c (some ⟨c, x, g.range.endKey⟩)) g.range.id
        (some { g.range with endKey := x }) ∧
      (g.applyCommand i db cmd).1.appliedKey = db.appliedKey) := by
  cases cmd with
  | split c x =>
    unfold Group.applyCommand Group.applySplit
    dsimp only
    by_cases hin : ¬ g.range.Contains x ∨ x = g.range.start
    · rw [if_pos hin]
      refine .inl ⟨rfl, rfl, rfl, .inl (if_neg ?_)⟩
      rintro ⟨hc, hne⟩
      exact hin.elim (fun hnot => hnot hc) hne
    · obtain ⟨hc, hne⟩ := not_or.mp hin
      rw [if_neg hin]
      cases hprobe : db.rangeKey c with
      | none => exact .inr ⟨c, x, rfl, hprobe, not_not.mp hc, hne, rfl, rfl, rfl⟩
      | some e => exact .inl ⟨rfl, rfl, rfl, .inr ⟨c, x, rfl, by rw [hprobe]; simp⟩⟩
  | noop | put k v | delete k | txn cmd | tsTick => exact .inl ⟨rfl, rfl, rfl, .inl rfl⟩

/-- `applied_index_` moves past the entry. -/
def Group.next (g : Group) : Group :=
  { g with appliedIndex := g.appliedIndex + 1, applying := false, spawning := none }

section

variable {n : Node}

/-! ## Descriptors and groups. -/

structure Stored (n : Node) : Prop where
  hosted : ∀ {i g}, n.groups.lookup i = some g → n.db.rangeKey i = some g.range
  ident : ∀ {i d}, n.db.rangeKey i = some d → d.id = i
  described : ∀ {c}, n.db.rangeKey c ≠ none → n.groups.lookup c ≠ none ∨
    ∃ (i : Nat) (g : Group) (e : RangeDesc), n.groups.lookup i = some g ∧
      g.spawning = some e ∧ e.id = c
  child : ∀ {i g e}, n.groups.lookup i = some g → g.spawning = some e →
    n.db.rangeKey e.id ≠ none
  idle : ∀ {i g}, n.groups.lookup i = some g → g.applying = false → g.spawning = none

theorem Stored.ensureGroup (h : Stored n) {e : RangeDesc} (he : n.db.rangeKey e.id ≠ none) :
    Stored (n.ensureGroup e) := by
  obtain ⟨d, hd⟩ := ne_none_iff_exists'.mp he
  have hkeys : (n.ensureGroup e).db.rangeKey = n.db.rangeKey := by rw [n.ensureGroup_db]
  refine ⟨fun {i g} hg => ?_, fun {i d} hd => ?_, fun {c} hc => ?_, fun {i g f} hg hf => ?_,
    fun {i g} hg hidle => ?_⟩
  · rw [hkeys]
    rcases Node.lookup_ensureGroup_cases hg with hg | ⟨rfl, _, rfl⟩
    · exact h.hosted hg
    · show n.db.rangeKey e.id = some ((n.db.rangeKey e.id).getD e)
      rw [hd]
      rfl
  · rw [hkeys] at hd
    exact h.ident hd
  · rw [hkeys] at hc
    rcases h.described hc with hc | ⟨i, g, f, hg, hf⟩
    · obtain ⟨g, hg⟩ := ne_none_iff_exists'.mp hc
      left
      rw [Node.lookup_ensureGroup_of_some hg e]
      simp
    · exact .inr ⟨i, g, f, Node.lookup_ensureGroup_of_some hg e, hf⟩
  · rw [hkeys]
    rcases Node.lookup_ensureGroup_cases hg with hg | ⟨_, _, rfl⟩
    · exact h.child hg hf
    · cases hf
  · rcases Node.lookup_ensureGroup_cases hg with hg | ⟨_, _, rfl⟩
    · exact h.idle hg hidle
    · rfl

theorem Stored.described_insert (h : Stored n) {i : Nat} {g : Group}
    (hg : n.groups.lookup i = some g) (hquiet : g.spawning = none) (g' : Group) {c : Nat}
    (hc : n.db.rangeKey c ≠ none) : (n.groups.insert i g').lookup c ≠ none ∨
      ∃ (j : Nat) (gj : Group) (e : RangeDesc), (n.groups.insert i g').lookup j = some gj ∧
        gj.spawning = some e ∧ e.id = c := by
  rcases h.described hc with hc | ⟨j, gj, f, hj, hf, hfc⟩
  · exact .inl (lookup_insert_ne_none _ hc)
  · have hji : j ≠ i := by
      rintro rfl
      rw [hg] at hj
      cases hj
      rw [hquiet] at hf
      cases hf
    exact .inr ⟨j, gj, f, (AList.lookup_insert_ne hji).trans hj, hf, hfc⟩

theorem Stored.begin_same (h : Stored n) {i : Nat} {g : Group} (hg : n.groups.lookup i = some g)
    (hquiet : g.spawning = none) {db : Db} (hkeys : db.rangeKey = n.db.rangeKey) :
    Stored { n with db := db, groups := n.groups.insert i { g with applying := true } } := by
  constructor
  · intro j gj hj
    show db.rangeKey j = some gj.range
    rw [hkeys]
    rcases lookup_insert_cases hj with ⟨rfl, rfl⟩ | ⟨_, hj⟩
    · show n.db.rangeKey j = some g.range
      exact h.hosted hg
    · exact h.hosted hj
  · intro j d hd
    apply h.ident
    rw [← hkeys]
    exact hd
  · intro c hc
    apply h.described_insert hg hquiet
    rw [← hkeys]
    exact hc
  · intro j gj f hj hf
    show db.rangeKey f.id ≠ none
    rw [hkeys]
    rcases lookup_insert_cases hj with ⟨rfl, rfl⟩ | ⟨_, hj⟩
    · exact h.child hg hf
    · exact h.child hj hf
  · intro j gj hj hidle
    rcases lookup_insert_cases hj with ⟨rfl, rfl⟩ | ⟨_, hj⟩
    · exact hquiet
    · exact h.idle hj hidle

theorem Stored.begin_cut (h : Stored n) {i c : Nat} {g g' : Group} {x : Key} {db : Db}
    (hg : n.groups.lookup i = some g) (hquiet : g.spawning = none)
    (hnone : n.db.rangeKey c = none) (hrange : g'.range = { g.range with endKey := x })
    (hspawning : g'.spawning = some ⟨c, x, g.range.endKey⟩) (hbusy : g'.applying = true)
    (hkeys : db.rangeKey = update
      (update n.db.rangeKey c (some ⟨c, x, g.range.endKey⟩)) g.range.id
      (some { g.range with endKey := x })) :
    Stored { n with db := db, groups := n.groups.insert i g' } := by
  have hid : g.range.id = i := h.ident (h.hosted hg)
  -- the child is neither this group nor any other
  have hother : ∀ {j gj}, n.groups.lookup j = some gj → j ≠ c := by
    rintro j gj hj rfl
    rw [h.hosted hj] at hnone
    cases hnone
  have hself : db.rangeKey i = some { g.range with endKey := x } := by rw [hkeys, hid, update_self]
  have hchild : db.rangeKey c = some ⟨c, x, g.range.endKey⟩ := by
    rw [hkeys, hid, update_of_ne (Ne.symm (hother hg)), update_self]
  have hrest : ∀ {j}, j ≠ i → j ≠ c → db.rangeKey j = n.db.rangeKey j := by
    intro j hji hjc
    rw [hkeys, hid, update_of_ne hji, update_of_ne hjc]
  constructor
  · intro j gj hj
    show db.rangeKey j = some gj.range
    rcases lookup_insert_cases hj with ⟨rfl, rfl⟩ | ⟨hji, hj⟩
    · rw [hself, hrange]
    · rw [hrest hji (hother hj)]
      exact h.hosted hj
  · intro j d hd
    replace hd : db.rangeKey j = some d := hd
    by_cases hji : j = i
    · subst hji
      rw [hself] at hd
      cases hd
      exact hid
    · by_cases hjc : j = c
      · subst hjc
        rw [hchild] at hd
        cases hd
        rfl
      · rw [hrest hji hjc] at hd
        exact h.ident hd
  · intro c' hc
    by_cases hci : c' = i
    · left
      rw [hci, AList.lookup_insert]
      simp
    · by_cases hcc : c' = c
      · exact .inr ⟨i, g', _, AList.lookup_insert _, hspawning, hcc.symm⟩
      · apply h.described_insert hg hquiet
        rw [← hrest hci hcc]
        exact hc
  · intro j gj f hj hf
    show db.rangeKey f.id ≠ none
    by_cases hfi : f.id = i
    · rw [hfi, hself]
      simp
    · by_cases hfc : f.id = c
      · rw [hfc, hchild]
        simp
      · rw [hrest hfi hfc]
        rcases lookup_insert_cases hj with ⟨rfl, rfl⟩ | ⟨_, hj⟩
        · rw [hspawning] at hf
          cases hf
          exact absurd rfl hfc
        · exact h.child hj hf
  · intro j gj hj hidle
    rcases lookup_insert_cases hj with ⟨rfl, rfl⟩ | ⟨_, hj⟩
    · rw [hbusy] at hidle
      cases hidle
    · exact h.idle hj hidle

theorem Stored.applyBegin (h : Stored n) {i : Nat} {g : Group} (hg : n.groups.lookup i = some g)
    (hidle : g.applying = false) (cmd : Command) : Stored (n.applyBegin i cmd) := by
  have hquiet := h.idle hg hidle
  unfold Node.applyBegin
  rw [hg]
  dsimp only
  rcases g.applyCommand_spec i n.db cmd with ⟨hsame, hkeys, _⟩ |
    ⟨c, x, _, hnone, _, _, hcut, hkeys, _⟩
  · rw [hsame]
    exact h.begin_same hg hquiet hkeys
  · rw [hcut]
    exact h.begin_cut hg hquiet hnone rfl rfl rfl hkeys

theorem Stored.finish (h : Stored n) {i : Nat} {g : Group} (hg : n.groups.lookup i = some g)
    (hspawned : ∀ e, g.spawning = some e → n.groups.lookup e.id ≠ none)
    (marks : Nat → Option Nat) :
    Stored { n with
      db := { n.db with appliedKey := marks }
      groups := n.groups.insert i g.next } := by
  refine ⟨fun {j gj} hj => ?_, h.ident, fun {c} hc => ?_, fun {j gj f} hj hf => ?_,
    fun {j gj} hj hidle => ?_⟩
  · rcases lookup_insert_cases hj with ⟨rfl, rfl⟩ | ⟨_, hj⟩
    · show n.db.rangeKey j = some g.range
      exact h.hosted hg
    · exact h.hosted hj
  · rcases h.described hc with hc | ⟨j, gj, f, hj, hf, hfc⟩
    · exact .inl (lookup_insert_ne_none _ hc)
    · by_cases hji : j = i
      · rw [hji, hg] at hj
        cases hj
        exact .inl (lookup_insert_ne_none _ (hfc ▸ hspawned f hf))
      · exact .inr ⟨j, gj, f, (AList.lookup_insert_ne hji).trans hj, hf, hfc⟩
  · rcases lookup_insert_cases hj with ⟨rfl, rfl⟩ | ⟨_, hj⟩
    · cases hf
    · exact h.child hj hf
  · rcases lookup_insert_cases hj with ⟨rfl, rfl⟩ | ⟨_, hj⟩
    · rfl
    · exact h.idle hj hidle

theorem Stored.applyEnd (h : Stored n) (i : Nat) : Stored (n.applyEnd i) := by
  unfold Node.applyEnd
  cases hg : n.groups.lookup i with
  | none => exact h
  | some g =>
    dsimp only
    cases hspawn : g.spawning with
    | none =>
      refine h.finish hg (fun e he => ?_) _
      rw [hspawn] at he
      cases he
    | some e =>
      refine (h.ensureGroup (h.child hg hspawn)).finish
        (Node.lookup_ensureGroup_of_some hg e) (fun f hf => ?_) _
      rw [hspawn] at hf
      cases hf
      exact n.lookup_ensureGroup_self e

theorem bootstrap_lookup (i : Nat) : Node.bootstrap.groups.lookup i =
    if i = 1 then some { range := ⟨1, [], []⟩ } else none := by
  have hgroups : Node.bootstrap.groups = AList.insert 1 { range := ⟨1, [], []⟩ } ∅ := rfl
  rw [hgroups]
  split
  · rename_i hi
    rw [hi, AList.lookup_insert]
  · rename_i hi
    rw [AList.lookup_insert_ne hi]
    rfl

theorem eq_of_bootstrap_lookup {i : Nat} {g : Group}
    (hg : Node.bootstrap.groups.lookup i = some g) : i = 1 ∧ g = { range := ⟨1, [], []⟩ } := by
  rw [bootstrap_lookup] at hg
  split at hg
  · exact ⟨by assumption, (Option.some.inj hg).symm⟩
  · cases hg

theorem bootstrap_rangeKey (i : Nat) :
    Node.bootstrap.db.rangeKey i = if i = 1 then some ⟨1, [], []⟩ else none := by
  show update (fun _ => none) 1 (some (⟨1, [], []⟩ : RangeDesc)) i = _
  rw [update_apply]

theorem eq_of_bootstrap_rangeKey {i : Nat} {d : RangeDesc}
    (hd : Node.bootstrap.db.rangeKey i = some d) : i = 1 ∧ d = ⟨1, [], []⟩ := by
  rw [bootstrap_rangeKey] at hd
  split at hd
  · exact ⟨by assumption, (Option.some.inj hd).symm⟩
  · cases hd

theorem Partition.bootstrap : Partition Node.bootstrap.db.rangeKey := by
  refine ⟨fun key => ⟨1, ⟨1, [], []⟩, rfl, le_of_not_gt (not_lt_nil _), .inl rfl⟩, ?_, ?_⟩
  · intro i j d e key hi hj _ _
    rw [(eq_of_bootstrap_rangeKey hi).1, (eq_of_bootstrap_rangeKey hj).1]
  · intro i d hi
    rw [(eq_of_bootstrap_rangeKey hi).2]
    exact ⟨le_refl _, .inl rfl⟩

theorem Stored.bootstrap : Stored Node.bootstrap := by
  refine ⟨fun {i g} hg => ?_, fun {i d} hd => ?_, fun {c} hc => ?_, fun {i g e} hg he => ?_,
    fun {i g} hg _ => ?_⟩
  · obtain ⟨rfl, rfl⟩ := eq_of_bootstrap_lookup hg
    rfl
  · obtain ⟨rfl, rfl⟩ := eq_of_bootstrap_rangeKey hd
    rfl
  · left
    obtain ⟨d, hd⟩ := ne_none_iff_exists'.mp hc
    rw [bootstrap_lookup, if_pos (eq_of_bootstrap_rangeKey hd).1]
    simp
  · obtain ⟨rfl, rfl⟩ := eq_of_bootstrap_lookup hg
    cases he
  · obtain ⟨rfl, rfl⟩ := eq_of_bootstrap_lookup hg
    rfl

theorem Stored.rangeKey_eq (h : Stored n) (hidle : n.idle = true) (i : Nat) :
    n.db.rangeKey i = n.range? i := by
  unfold Node.range?
  cases hg : n.groups.lookup i with
  | some g => exact h.hosted hg
  | none =>
    show n.db.rangeKey i = none
    by_contra hc
    rcases h.described hc with hhosted | ⟨j, gj, e, hj, he, _⟩
    · exact hhosted hg
    · rw [h.idle hj (Node.idle_iff.mp hidle hj)] at he
      cases he

end

end Flotilla.Server
