/-
  Server.SplitAgreement — replicas that have applied the same entries
  have the same ranges.

  A node interleaves the logs of its groups as it likes.  The range of a group
  is a function of its own log (`GroupOk.routed`), and the ranges of a node tile
  the key space (`NodeOk.tiling`), so two nodes with the same entries applied
  can not even differ in which groups they have.
-/
import Flotilla.Server.Splits

namespace Flotilla.Server

open Flotilla.Txn (Key)

/-! ## What two nodes are compared by. -/

theorem Node.appliedTo_ext {n m : Node}
    (h : ∀ i ∈ n.groups.keys ++ m.groups.keys, n.appliedTo i = m.appliedTo i) (i : Nat) :
    n.appliedTo i = m.appliedTo i := by
  by_cases hi : i ∈ n.groups.keys ++ m.groups.keys
  · exact h i hi
  · obtain ⟨hn, hm⟩ := not_or.mp (fun hor => hi (mem_append.mpr hor))
    unfold appliedTo
    rw [AList.lookup_eq_none.mpr hn, AList.lookup_eq_none.mpr hm]

/-! ## The descriptors along a run. -/

theorem Stored.step {s s' : Cluster} (h : ∀ k, Stored (s.nodes k)) {e : Event}
    (hmove : Moves s e s') : ∀ k, Stored (s'.nodes k) := by
  have hset : ∀ {k n}, Stored n → ∀ k', Stored (update s.nodes k n k') := by
    intro k n hn k'
    by_cases hk : k' = k
    · rw [hk, update_self]
      exact hn
    · rw [update_of_ne hk]
      exact h k'
  cases hmove with
  | route _ _ | allocate _ | append _ _ | appendSplit _ | lead _ => exact h
  | applyBegin hg hidle _ => exact hset ((h _).applyBegin hg hidle _)
  | applyEnd _ _ => exact hset ((h _).applyEnd _)

theorem Stored.run {es : List Event} {s : Cluster} (hrun : Machine.run Cluster.step {} es = some s)
    (k : Nat) : Stored (s.nodes k) :=
  Machine.run_invariant (fun _ _ _ h hstep => Stored.step h (Cluster.moves_of_step hstep))
    (fun _ => .bootstrap) hrun k

/-! ## Agreement. -/

section

variable {birth : Nat → Option RangeDesc} {log : Nat → List Command} {n m : Node}

theorem NodeOk.range_of_idle (h : NodeOk birth log n) (hidle : n.idle = true) {i : Nat} {g : Group}
    (hg : n.groups.lookup i = some g) :
    ∃ d, birth i = some d ∧ g.routed = g.range ∧
      g.range = rangeAfter d ((log i).take g.appliedIndex) := by
  obtain ⟨d, hd, hok⟩ := h.group hg
  have hrouted : g.routed = g.range := by
    unfold Group.routed
    rw [hok.idle (Node.idle_iff.mp hidle hg)]
  exact ⟨d, hd, hrouted, hrouted ▸ hok.routed⟩

theorem SplitsOk.start_inj (h : SplitsOk birth log) {i j : Nat} {d e : RangeDesc}
    (hd : birth i = some d) (he : birth j = some e) (hstart : d.start = e.start) : i = j := by
  refine h.apart hd he (contains_start_rangeAfter (h.desc hd).2 (log i)) ?_
  rw [hstart]
  exact contains_start_rangeAfter (h.desc he).2 (log j)

theorem NodeOk.range_eq (hlogs : SplitsOk birth log) (hn : NodeOk birth log n)
    (hm : NodeOk birth log m) (hidle : n.idle = true) (hidle' : m.idle = true)
    (happlied : ∀ i, n.appliedTo i = m.appliedTo i) : n.range? = m.range? := by
  have hrange : ∀ {k : Node}, NodeOk birth log k → k.idle = true →
      (fun i => (k.groups.lookup i).map Group.routed) = k.range? := by
    intro k hk hidle
    funext i
    unfold Node.range?
    cases hg : k.groups.lookup i with
    | none => rfl
    | some g =>
      obtain ⟨_, _, hrouted, _⟩ := hk.range_of_idle hidle hg
      exact congrArg some hrouted
  -- a group of either node, by its birth
  have hborn : ∀ {k : Node}, NodeOk birth log k → k.idle = true → ∀ {i r}, k.range? i = some r →
      ∃ d, birth i = some d ∧ r = rangeAfter d ((log i).take (k.appliedTo i)) := by
    intro k hk hidle i r hr
    obtain ⟨g, hg, rfl⟩ := map_eq_some_iff.mp hr
    obtain ⟨d, hd, _, hr⟩ := hk.range_of_idle hidle hg
    rw [Node.appliedTo_of_lookup hg]
    exact ⟨d, hd, hr⟩
  have htiling := hn.tiling
  have htiling' := hm.tiling
  rw [hrange hn hidle] at htiling
  rw [hrange hm hidle'] at htiling'
  apply htiling.unique htiling'
  · intro i r r' hr hr'
    obtain ⟨d, hd, rfl⟩ := hborn hn hidle hr
    obtain ⟨e, he, rfl⟩ := hborn hm hidle' hr'
    rw [hd] at he
    rw [Option.some.inj he, happlied]
  · intro i j r r' hr hr' hstart
    obtain ⟨d, hd, rfl⟩ := hborn hn hidle hr
    obtain ⟨e, he, rfl⟩ := hborn hm hidle' hr'
    rw [(rangeAfter_start d _).1, (rangeAfter_start e _).1] at hstart
    exact hlogs.start_inj hd he hstart

end

/-- **Replicas agree on the ranges**: in every run in which each split gets a new child id, two
nodes that have applied the same prefix of every group's log have the same groups, with the same
ranges, and the same descriptors on disk. -/
theorem replicas_agree {es : List Event} {s : Cluster}
    (hrun : Machine.run Cluster.step {} es = some s)
    (hfresh : Machine.Along Cluster.step (fun s e => freshChild s e = true) {} es) {j k : Nat}
    (hj : (s.nodes j).idle = true) (hk : (s.nodes k).idle = true)
    (happlied : ∀ i, (s.nodes j).appliedTo i = (s.nodes k).appliedTo i) :
    ∀ i, (s.nodes j).range? i = (s.nodes k).range? i ∧
      (s.nodes j).db.rangeKey i = (s.nodes k).db.rangeKey i := by
  have h := RangesOk.run hrun hfresh
  have hrange := NodeOk.range_eq h.logs (h.node j) (h.node k) hj hk happlied
  intro i
  refine ⟨congrFun hrange i, ?_⟩
  rw [(Stored.run hrun j).rangeKey_eq hj i, (Stored.run hrun k).rangeKey_eq hk i, hrange]

/-- Splits at "m", "c" and "t"; node 1 applies the last two the other way round. -/
def splitTwice : List Event :=
  [.route 0 [109], .allocate 0, .appendSplit 0, .applyBegin 0 1, .applyEnd 0 1,
    .route 0 [99], .allocate 1, .appendSplit 1, .applyBegin 0 1, .applyEnd 0 1,
    .route 0 [116], .allocate 2, .appendSplit 2, .applyBegin 0 2, .applyEnd 0 2,
    .applyBegin 1 1, .applyEnd 1 1, .applyBegin 1 2, .applyEnd 1 2, .applyBegin 1 1, .applyEnd 1 1]

theorem replicas_agree_splitTwice :
    ∃ s, Machine.run Cluster.step {} splitTwice = some s ∧
      (s.nodes 0).range? 4 = some ⟨4, [116], []⟩ ∧
      (s.nodes 1).range? 4 = some ⟨4, [116], []⟩ ∧
      ∀ i, (s.nodes 0).db.rangeKey i = (s.nodes 1).db.rangeKey i := by
  have hfresh : Machine.Along Cluster.step (fun s e => freshChild s e = true) {} splitTwice := by
    decide +kernel
  obtain ⟨s, hrun, hj, hk, happlied, hrange⟩ : ∃ s,
      Machine.run Cluster.step {} splitTwice = some s ∧
        (s.nodes 0).idle = true ∧ (s.nodes 1).idle = true ∧
        (∀ i ∈ (s.nodes 0).groups.keys ++ (s.nodes 1).groups.keys,
          (s.nodes 0).appliedTo i = (s.nodes 1).appliedTo i) ∧
        (s.nodes 0).range? 4 = some ⟨4, [116], []⟩ := by decide +kernel
  have hagree := replicas_agree hrun hfresh hj hk (Node.appliedTo_ext happlied)
  exact ⟨s, hrun, hrange, (hagree 4).1 ▸ hrange, fun i => (hagree i).2⟩

/-- After a split at "m" two nodes split the two groups, and both allocate the id 3.  Node 0
applies the split of group 1 first, node 1 that of group 2. -/
def splitAtOnce : List Event :=
  [.route 0 [109], .allocate 0, .appendSplit 0, .applyBegin 0 1, .applyEnd 0 1, .applyBegin 1 1,
    .applyEnd 1 1, .route 0 [99], .allocate 1, .route 1 [116], .allocate 2, .appendSplit 1,
    .appendSplit 2, .applyBegin 0 1, .applyEnd 0 1, .applyBegin 0 2, .applyEnd 0 2,
    .applyBegin 1 2, .applyEnd 1 2, .applyBegin 1 1, .applyEnd 1 1]

/-- Each node skips the other split as a replay, and group 3 is ["c", "m") on node 0 and ["t", ∞)
on node 1. -/
theorem replicas_diverge :
    ∃ s, Machine.run Cluster.step {} splitAtOnce = some s ∧
      (s.nodes 0).idle = true ∧ (s.nodes 1).idle = true ∧
      (∀ i, (s.nodes 0).appliedTo i = (s.nodes 1).appliedTo i) ∧
      (s.nodes 0).db.rangeKey 3 = some ⟨3, [99], [109]⟩ ∧
      (s.nodes 1).db.rangeKey 3 = some ⟨3, [116], []⟩ ∧
      (s.nodes 0).range? 3 ≠ (s.nodes 1).range? 3 := by
  obtain ⟨s, hrun, hj, hk, happlied, hfacts⟩ : ∃ s,
      Machine.run Cluster.step {} splitAtOnce = some s ∧
        (s.nodes 0).idle = true ∧ (s.nodes 1).idle = true ∧
        (∀ i ∈ (s.nodes 0).groups.keys ++ (s.nodes 1).groups.keys,
          (s.nodes 0).appliedTo i = (s.nodes 1).appliedTo i) ∧
        (s.nodes 0).db.rangeKey 3 = some ⟨3, [99], [109]⟩ ∧
        (s.nodes 1).db.rangeKey 3 = some ⟨3, [116], []⟩ ∧
        (s.nodes 0).range? 3 ≠ (s.nodes 1).range? 3 := by decide +kernel
  exact ⟨s, hrun, hj, hk, Node.appliedTo_ext happlied, hfacts⟩

/-! ## What an acknowledged split did. -/

end Flotilla.Server
