/-
  Server.SplitCommands — runs of split commands on one node.

  A split command is bytes in the log of a group: op 3, the split key and the id
  of the child.  The key has a length of 32 bits in them, so a descriptor that is
  made from it can be read back (`Short`).  Between two commands the ranges of the
  groups are a tiling, the routing table lists their starts, and the descriptors
  in the database are the ranges.
-/
import Flotilla.Coding
import Flotilla.Lib.Machine
import Flotilla.Server.Restart

namespace Flotilla.Server

open Node
open Flotilla.Txn (Key)

/-! ## Formats. -/

/-- `DecodeCommand`: op, key and value. -/
def decodeCommand (cmd : Bytes) : Option (Nat × Bytes × Bytes) :=
  let op := (Decoder.mk cmd false).u8
  let key := op.2.lengthPrefixed
  let value := key.2.lengthPrefixed
  if value.2.ok = true ∧ value.2.remaining = 0 ∧ 1 ≤ op.1 ∧ op.1 ≤ 7
  then some (op.1, key.1, value.1) else none

/-- Op 3 of `ApplyCommand`: the child id and the split key. -/
def decodeSplit (cmd : Bytes) : Option (Nat × Key) :=
  match decodeCommand cmd with
  | some (3, key, value) =>
      let childId := (Decoder.mk value false).u32
      if childId.2.ok then some (childId.1, key) else none
  | _ => none

def encodeRangeDesc (d : RangeDesc) : Bytes := putLengthPrefixed d.start ++ putLengthPrefixed d.endKey

def decodeRangeDesc (id : Nat) (data : Bytes) : Option RangeDesc :=
  let start := (Decoder.mk data false).lengthPrefixed
  let endKey := start.2.lengthPrefixed
  if endKey.2.ok = true ∧ endKey.2.remaining = 0 then some ⟨id, start.1, endKey.1⟩ else none

/-- Both keys fit a length prefix. -/
def RangeDesc.Short (d : RangeDesc) : Prop := d.start.length < 2 ^ 32 ∧ d.endKey.length < 2 ^ 32

theorem decodeRangeDesc_encode {d : RangeDesc} (h : d.Short) :
    decodeRangeDesc d.id (encodeRangeDesc d) = some d := by
  have hend : (Decoder.mk (putLengthPrefixed d.endKey) false).lengthPrefixed =
      (d.endKey, ⟨[], false⟩) := by
    have hput := Decoder.lengthPrefixed_put h.2 []
    rw [append_nil] at hput
    exact hput
  unfold decodeRangeDesc encodeRangeDesc
  simp only [Decoder.lengthPrefixed_put h.1, hend]
  simp [Decoder.ok, Decoder.remaining]

theorem length_decodeSplit {cmd : Bytes} {childId : Nat} {key : Key}
    (h : decodeSplit cmd = some (childId, key)) : key.length < 2 ^ 32 := by
  unfold decodeSplit at h
  split at h
  · rename_i key' value hcmd
    dsimp only at h
    split at h
    · cases h
      unfold decodeCommand at hcmd
      dsimp only at hcmd
      split at hcmd
      · simp only [Option.some.injEq, Prod.mk.injEq] at hcmd
        rw [← hcmd.2.1]
        exact Decoder.length_lengthPrefixed _
      · cases hcmd
    · cases h
  · cases h

/-! ## One command. -/

/-- Split command `e.2` is applied by group `e.1`. -/
def Node.splitStep (n : Node) (e : Nat × Bytes) : Option Node :=
  match n.groups.lookup e.1, decodeSplit e.2 with
  | some _, some (childId, key) => some (n.applyEntry e.1 (.split childId key))
  | _, _ => none

section

variable {n : Node} {i c : Nat} {g : Group} {x : Key}

theorem Node.applyEntry_same (hg : n.groups.lookup i = some g) (hquiet : g.spawning = none)
    {cmd : Command} (hsame : (g.applyCommand i n.db cmd).2 = g) :
    (n.applyEntry i cmd).range? = n.range? ∧ (n.applyEntry i cmd).routing = n.routing := by
  have hbegin : n.applyBegin i cmd =
      { n with
        db := (g.applyCommand i n.db cmd).1
        groups := n.groups.insert i { g with applying := true } } := by
    unfold Node.applyBegin
    rw [hg]
    dsimp only
    rw [hsame]
  unfold Node.applyEntry
  rw [hbegin]
  unfold Node.applyEnd
  rw [AList.lookup_insert]
  rw [hquiet]
  refine ⟨?_, rfl⟩
  funext j
  unfold range?
  by_cases hji : j = i
  · rw [hji, AList.lookup_insert, hg]
    rfl
  · rw [AList.lookup_insert_ne hji, AList.lookup_insert_ne hji]

theorem Node.applyEntry_cut (hg : n.groups.lookup i = some g) (hid : g.range.id = i)
    (hfree : n.groups.lookup c = none) {cmd : Command}
    (hcut : (g.applyCommand i n.db cmd).2 =
      { g with
        range := { g.range with endKey := x }
        spawned := g.spawned ++ [⟨c, x, g.range.endKey⟩]
        spawning := some ⟨c, x, g.range.endKey⟩ })
    (hkeys : (g.applyCommand i n.db cmd).1.rangeKey = update
      (update n.db.rangeKey c (some ⟨c, x, g.range.endKey⟩)) g.range.id
      (some { g.range with endKey := x })) :
    (n.applyEntry i cmd).range? = cutAt n.range? i g.range c x ∧
      (n.applyEntry i cmd).routing = insertRoute x c n.routing := by
  have hci : c ≠ i := by
    intro heq
    rw [heq, hg] at hfree
    cases hfree
  have hchild : (g.applyCommand i n.db cmd).1.rangeKey c = some ⟨c, x, g.range.endKey⟩ := by
    rw [hkeys, hid, update_of_ne hci, update_self]
  unfold Node.applyEntry Node.applyBegin
  rw [hg]
  dsimp only
  rw [hcut]
  unfold Node.applyEnd
  rw [AList.lookup_insert]
  unfold Node.ensureGroup
  dsimp only
  rw [AList.lookup_insert_ne hci, hfree]
  dsimp only
  have hinit : (Group.init (g.applyCommand i n.db cmd).1 ⟨c, x, g.range.endKey⟩).range =
      ⟨c, x, g.range.endKey⟩ := by
    show ((g.applyCommand i n.db cmd).1.rangeKey c).getD _ = _
    rw [hchild]
    rfl
  rw [hinit]
  refine ⟨?_, rfl⟩
  funext j
  unfold range?
  by_cases hji : j = i
  · rw [hji, AList.lookup_insert, cutAt_parent (Ne.symm hci)]
    rfl
  · rw [AList.lookup_insert_ne hji]
    by_cases hjc : j = c
    · rw [hjc, AList.lookup_insert, cutAt_child]
      exact congrArg some hinit
    · rw [AList.lookup_insert_ne hjc, AList.lookup_insert_ne hji, cutAt_other hji hjc]

end

/-! ## Runs. -/

/-- Between two commands. -/
structure Tiled (n : Node) : Prop where
  stored : Stored n
  idle : n.idle = true
  tiling : Tiling n.range? n.routing
  short : ∀ {i d}, n.range? i = some d → d.Short

namespace Tiled

variable {n n' : Node}

theorem bootstrap : Tiled Node.bootstrap := by
  have hrange : Node.bootstrap.range? = Node.bootstrap.db.rangeKey := by
    funext i
    unfold range?
    rw [bootstrap_lookup, bootstrap_rangeKey]
    split <;> rfl
  have hpart := Partition.bootstrap
  refine ⟨.bootstrap, rfl, ?_, ?_⟩
  · rw [hrange]
    refine ⟨hpart, ?_, pairwise_singleton _ _⟩
    intro s i
    constructor
    · intro hroute
      cases mem_singleton.mp hroute
      exact ⟨_, rfl, rfl⟩
    · rintro ⟨d, hd, rfl⟩
      obtain ⟨rfl, rfl⟩ := eq_of_bootstrap_rangeKey hd
      exact mem_singleton.mpr rfl
  · intro i d hd
    rw [hrange] at hd
    rw [(eq_of_bootstrap_rangeKey hd).2]
    exact ⟨Nat.two_pow_pos 32, Nat.two_pow_pos 32⟩

theorem step (h : Tiled n) {e : Nat × Bytes} (hstep : n.splitStep e = some n') : Tiled n' := by
  obtain ⟨i, cmd⟩ := e
  unfold splitStep at hstep
  split at hstep
  · rename_i g childId key hg hcmd
    have hidle := idle_iff.mp h.idle hg
    have hquiet := h.stored.idle hg hidle
    have hrange : n.range? i = some g.range := by
      unfold range?
      rw [hg]
      rfl
    have hid : g.range.id = i := h.stored.ident (h.stored.hosted hg)
    have hshort := length_decodeSplit hcmd
    cases hstep
    have hstored : Stored (n.applyEntry i (.split childId key)) :=
      (h.stored.applyBegin hg hidle _).applyEnd i
    have hidle' : (n.applyEntry i (.split childId key)).idle = true := idle_applyEntry h.idle _
    rcases g.applyCommand_spec i n.db (.split childId key) with ⟨hsame, _⟩ |
      ⟨c, x, heq, hnone, hin, hne, hcut, hkeys, _⟩
    · obtain ⟨hranges, hrouting⟩ := applyEntry_same hg hquiet hsame
      refine ⟨hstored, hidle', ?_, ?_⟩
      · rw [hranges, hrouting]
        exact h.tiling
      · rw [hranges]
        exact h.short
    · cases heq
      have hfree : n.groups.lookup childId = none := by
        cases hc : n.groups.lookup childId with
        | none => rfl
        | some g' =>
          rw [h.stored.hosted hc] at hnone
          cases hnone
      have hown : n.range? childId = none := by
        unfold range?
        rw [hfree]
        rfl
      obtain ⟨hranges, hrouting⟩ := applyEntry_cut hg hid hfree hcut hkeys
      refine ⟨hstored, hidle', ?_, ?_⟩
      · rw [hranges, hrouting]
        exact h.tiling.split hrange hin hne hown
      · intro j d hd
        rw [hranges] at hd
        -- the new bounds are the split key
        by_cases hjc : j = childId
        · rw [hjc, cutAt_child] at hd
          cases hd
          exact ⟨hshort, (h.short hrange).2⟩
        · by_cases hji : j = i
          · have hic : i ≠ childId := fun heq => hjc (hji.trans heq)
            rw [hji, cutAt_parent hic] at hd
            cases hd
            exact ⟨(h.short hrange).1, hshort⟩
          · rw [cutAt_other hji hjc] at hd
            exact h.short hd
  · cases hstep

end Tiled

theorem Tiling.routeToGroup {n : Node} (h : Tiling n.range? n.routing) {key : Key} {i : Nat} :
    n.routeToGroup key = some i ↔ ∃ d, n.range? i = some d ∧ d.Contains key := by
  have hroute : ∃ j d, n.routeToGroup key = some j ∧ n.range? j = some d ∧ d.Contains key := by
    obtain ⟨j, e, hj, hin⟩ := h.cover key
    have hmem : (e.start, j) ∈ n.routing.filter (fun route => route.1 ≤ key) :=
      mem_filter.mpr ⟨h.routes.mpr ⟨e, hj, rfl⟩, decide_eq_true hin.1⟩
    cases hlast : (n.routing.filter (fun route => route.1 ≤ key)).getLast? with
    | none =>
      rw [List.getLast?_eq_none_iff] at hlast
      rw [hlast] at hmem
      cases hmem
    | some route =>
      obtain ⟨d, hd, hkey⟩ := h.route hlast
      refine ⟨route.2, d, ?_, hd, hkey⟩
      obtain ⟨g, hg, _⟩ := map_eq_some_iff.mp hd
      unfold Node.routeToGroup
      rw [hlast]
      dsimp only
      rw [hg]
      rfl
  obtain ⟨j, d, hj, hd, hkey⟩ := hroute
  constructor
  · intro hi
    rw [hj] at hi
    cases hi
    exact ⟨d, hd, hkey⟩
  · rintro ⟨e, he, hin⟩
    rw [h.apart he hd hin hkey]
    exact hj

/-- **Ranges partition the key space.**  After every run of split commands the ranges of the groups
cover every key, no two of them share one, the descriptors in the database are the ranges and can
be read back, and `RouteToGroup` returns the one group that owns the key. -/
theorem ranges_partition {es : List (Nat × Bytes)} {n : Node}
    (hrun : Machine.run Node.splitStep Node.bootstrap es = some n) :
    (∀ key, ∃ i d, n.range? i = some d ∧ d.Contains key) ∧
      (∀ i j d e key, n.range? i = some d → n.range? j = some e → d.Contains key →
        e.Contains key → i = j) ∧
      (∀ i, n.db.rangeKey i = n.range? i) ∧
      (∀ i d, n.range? i = some d → decodeRangeDesc i (encodeRangeDesc d) = some d) ∧
      ∀ key i, n.routeToGroup key = some i ↔ ∃ d, n.range? i = some d ∧ d.Contains key := by
  have htiled : Tiled n :=
    Machine.run_invariant (fun s e s' hs hstep => hs.step hstep) Tiled.bootstrap hrun
  have hstored := htiled.stored.rangeKey_eq htiled.idle
  refine ⟨htiled.tiling.cover, fun i j d e key => htiled.tiling.apart, hstored, ?_,
    fun key i => htiled.tiling.routeToGroup⟩
  intro i d hd
  have hid : d.id = i := htiled.stored.ident ((hstored i).trans hd)
  rw [← hid]
  exact decodeRangeDesc_encode (htiled.short hd)

/-- A split command as it is proposed. -/
def splitCommand (childId : Nat) (key : Key) : Bytes :=
  putFixed8 3 ++ (putLengthPrefixed key ++ putLengthPrefixed (putFixed32 childId))

/-- Two nested splits, one of a child that exists, and one with a key outside the range. -/
def nestedSplits : List (Nat × Bytes) :=
  [(1, splitCommand 2 [5]), (2, splitCommand 3 [9]), (1, splitCommand 2 [3]), (1, splitCommand 4 [7])]

theorem ranges_partition_nestedSplits : ∃ n,
    Machine.run Node.splitStep Node.bootstrap nestedSplits = some n ∧
      n.range? 2 = some ⟨2, [5], [9]⟩ ∧ n.range? 4 = none ∧
      (n.routeToGroup [6] = some 2 ↔ ∃ d, n.range? 2 = some d ∧ d.Contains [6]) := by
  obtain ⟨n, hrun, htwo, hfour⟩ : ∃ n, Machine.run splitStep Node.bootstrap nestedSplits = some n ∧
      n.range? 2 = some ⟨2, [5], [9]⟩ ∧ n.range? 4 = none := by decide +kernel
  exact ⟨n, hrun, htwo, hfour, (ranges_partition hrun).2.2.2.2 [6] 2⟩

end Flotilla.Server
