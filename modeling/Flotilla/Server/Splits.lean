/-
  Server.Splits — the ranges of a cluster under splits.

  `RangesOk` is what every run keeps in which splits get new child ids, whatever
  requests are routed where: every node has come some way along the logs, and
  has the ranges that they leave.
-/
import Flotilla.Server.Ownership

namespace Flotilla.Server

open Flotilla.Txn (Key)

/-! ## The invariant of a cluster. -/

/-- What a routed request knows: the range that sent it to the group. -/
def RoutedOk (birth : Nat → Option RangeDesc) (log : Nat → List Command) (r : Routed) : Prop :=
  ∃ d, birth r.group = some d ∧ r.seen ≤ (log r.group).length ∧
    (rangeAfter d ((log r.group).take r.seen)).Contains r.key

structure RangesOk (s : Cluster) : Prop where
  logs : SplitsOk s.birth s.log
  node : ∀ k, NodeOk s.birth s.log (s.nodes k)
  routed : ∀ r ∈ s.routed, RoutedOk s.birth s.log r
  pending : ∀ p ∈ s.splits, s.birth p.group ≠ none

section

variable {s s' : Cluster}

theorem Cluster.log_push (s : Cluster) (i : Nat) (cmd : Command) :
    Cluster.log { s with history := s.history ++ [(i, cmd)] } = grow s.log i cmd := by
  funext j
  unfold Cluster.log grow
  by_cases hj : j = i
  · subst hj
    simp
  · rw [update_of_ne hj]
    simp [Ne.symm hj]

variable {cmd : Command} {i : Nat}

theorem Cluster.mem_history {a : Nat} (h : (s.log i)[a]? = some cmd) :
    (i, cmd) ∈ s.history := by
  have hmem := mem_of_getElem? h
  obtain ⟨⟨j, cmd'⟩, hin, rfl⟩ := mem_map.mp hmem
  obtain ⟨hin, hj⟩ := mem_filter.mp hin
  rw [← show j = i from of_decide_eq_true hj]
  exact hin

theorem Cluster.birth_push (s : Cluster) (i : Nat) (cmd : Command) :
    Cluster.birth { s with history := s.history ++ [(i, cmd)] } =
      match cmd, s.birth i with
      | .split c x, some d => spawnBirth s.birth (rangeAfter d (s.log i)) c x
      | _, _ => s.birth := by
  unfold Cluster.birth Cluster.log
  rw [List.reverse_append, List.reverse_singleton, singleton_append]
  cases cmd with
  | split c x =>
    cases hi : birthsRev s.history.reverse i with
    | none => simp only [birthsRev, hi]
    | some d => simp only [birthsRev, hi, List.reverse_reverse]
  | noop | put _ _ | delete _ | txn _ | tsTick => rfl

theorem Cluster.birth_push_of_not_split (h : ∀ c x, cmd ≠ .split c x) :
    Cluster.birth { s with history := s.history ++ [(i, cmd)] } = s.birth := by
  rw [s.birth_push]
  split
  · rename_i c x _ _
    exact absurd rfl (h c x)
  · rfl

theorem Cluster.birth_push_split {c : Nat} {x : Key} {d : RangeDesc} (hd : s.birth i = some d) :
    Cluster.birth { s with history := s.history ++ [(i, .split c x)] } =
      spawnBirth s.birth (rangeAfter d (s.log i)) c x := by
  rw [s.birth_push, hd]

theorem RangesOk.push (h : RangesOk s)
    (hlogs : SplitsOk (Cluster.birth { s with history := s.history ++ [(i, cmd)] })
      (grow s.log i cmd)) (hbirth : ∀ {j d}, s.birth j = some d →
      Cluster.birth { s with history := s.history ++ [(i, cmd)] } j = some d) :
    RangesOk { s with history := s.history ++ [(i, cmd)] } := by
  have hlog := s.log_push i cmd
  refine ⟨hlog ▸ hlogs, fun k => ?_, fun r hr => ?_, fun p hp => ?_⟩
  · rw [hlog]
    exact (h.node k).mono hbirth (isPrefix_grow s.log i cmd)
  · rw [hlog]
    obtain ⟨d, hd, hseen, hin⟩ := h.routed r hr
    obtain ⟨rest, hrest⟩ := isPrefix_grow s.log i cmd r.group
    refine ⟨d, hbirth hd, ?_, ?_⟩
    · exact hseen.trans (isPrefix_grow s.log i cmd r.group).length_le
    · rw [← hrest, take_append_of_le_length hseen]
      exact hin
  · obtain ⟨d, hd⟩ := ne_none_iff_exists'.mp (h.pending p hp)
    rw [hbirth hd]
    simp

theorem RangesOk.setNode (h : RangesOk s) {k : Nat} {n : Node}
    (hn : NodeOk s.birth s.log n) : RangesOk { s with nodes := update s.nodes k n } := by
  refine ⟨h.logs, fun k' => ?_, h.routed, h.pending⟩
  show NodeOk s.birth s.log (update s.nodes k n k')
  by_cases hk : k' = k
  · rw [hk, update_self]
    exact hn
  · rw [update_of_ne hk]
    exact h.node k'

theorem RangesOk.route (h : RangesOk s) {k group : Nat} {key : Key} {g : Group}
    (hroute : (s.nodes k).routeToGroup key = some group)
    (hg : (s.nodes k).groups.lookup group = some g) :
    RoutedOk s.birth s.log ⟨k, group, key, g.appliedIndex⟩ := by
  obtain ⟨d, hd, hok⟩ := (h.node k).group hg
  refine ⟨d, hd, hok.applied, ?_⟩
  unfold Node.routeToGroup at hroute
  split at hroute
  · rename_i route hlast
    split at hroute
    · cases hroute
      obtain ⟨e, he, hin⟩ := (h.node k).tiling.route hlast
      rw [hg] at he
      cases he
      rw [← hok.routed]
      exact hin
    · cases hroute
  · cases hroute

/-! ## Steps. -/

theorem Command.not_split_of_accepted {key : Key} (h : cmd.accepted key = true) :
    ∀ c x, cmd ≠ .split c x := by
  rintro c x rfl
  cases h

theorem RangesOk.append (h : RangesOk s) {i : Nat} (hi : s.birth i ≠ none) {cmd : Command}
    (hsplit : ∀ c x, cmd ≠ .split c x) :
    RangesOk { s with history := s.history ++ [(i, cmd)] } := by
  obtain ⟨d, hd⟩ := ne_none_iff_exists'.mp hi
  have hbirth := Cluster.birth_push_of_not_split (s := s) (i := i) hsplit
  refine h.push ?_ ?_
  · rw [hbirth]
    exact h.logs.append hd hsplit
  · rw [hbirth]
    exact id

theorem fresh_of_freshChild {p : PendingSplit} (hp : s.splits[i]? = some p)
    (hfresh : freshChild s (.appendSplit i) = true) :
    p.childId ≠ 1 ∧
      ∀ (j a : Nat) (y : Key), (s.log j)[a]? ≠ some (Command.split p.childId y) := by
  unfold freshChild at hfresh
  dsimp only at hfresh
  rw [hp] at hfresh
  obtain ⟨hroot, hall⟩ := Bool.and_eq_true_iff.mp hfresh
  refine ⟨by simpa using hroot, fun j a y hentry => ?_⟩
  have := all_eq_true.mp hall _ (Cluster.mem_history hentry)
  simp at this

theorem RangesOk.appendSplit (h : RangesOk s) {i c : Nat} {x : Key} (hi : s.birth i ≠ none)
    (hroot : c ≠ 1)
    (hfresh : ∀ (j a : Nat) (y : Key), (s.log j)[a]? ≠ some (Command.split c y)) :
    RangesOk { s with history := s.history ++ [(i, .split c x)] } := by
  obtain ⟨d, hd⟩ := ne_none_iff_exists'.mp hi
  have hbirth := Cluster.birth_push_split (c := c) (x := x) hd
  refine h.push ?_ ?_
  · rw [hbirth]
    exact h.logs.split hd hroot hfresh
  · intro j e hj
    rw [hbirth]
    exact h.logs.spawnBirth_keeps hroot hfresh hj

/-- An event keeps the ranges in order, if the child of a split is new. -/
theorem RangesOk.step (h : RangesOk s) {e : Event} (hfresh : freshChild s e = true)
    (hmove : Moves s e s') : RangesOk s' := by
  cases hmove with
  | route hroute hg =>
    refine ⟨h.logs, h.node, fun r hr => ?_, h.pending⟩
    rcases mem_append.mp hr with hr | hr
    · exact h.routed r hr
    · rw [mem_singleton.mp hr]
      exact h.route hroute hg
  | @allocate i childId r hr =>
    refine ⟨h.logs, h.node, h.routed, fun p hp => ?_⟩
    rcases mem_append.mp hp with hp | hp
    · exact h.pending p hp
    · obtain ⟨d, hd, _⟩ := h.routed r (mem_of_getElem? hr)
      rw [mem_singleton.mp hp]
      show s.birth r.group ≠ none
      rw [hd]
      simp
  | @append i r cmd hr haccept =>
    obtain ⟨d, hd, _⟩ := h.routed r (mem_of_getElem? hr)
    exact h.append (by rw [hd]; simp) (Command.not_split_of_accepted haccept)
  | appendSplit hp =>
    obtain ⟨hroot, hunused⟩ := fresh_of_freshChild hp hfresh
    exact h.appendSplit (h.pending _ (mem_of_getElem? hp)) hroot hunused
  | lead hg =>
    obtain ⟨d, hd, _⟩ := (h.node _).group hg
    exact h.append (by rw [hd]; simp) nofun
  | applyBegin hg hidle hentry =>
    exact h.setNode ((h.node _).applyBegin h.logs hg hidle hentry)
  | applyEnd hg hbusy => exact h.setNode ((h.node _).applyEnd h.logs hg hbusy)

end

/-! ## Runs. -/

theorem rootBirth_eq {i : Nat} {d : RangeDesc} (h : rootBirth i = some d) :
    i = 1 ∧ d = ⟨1, [], []⟩ := by
  unfold rootBirth at h
  by_cases hi : i = 1
  · rw [hi, update_self] at h
    exact ⟨hi, (Option.some.inj h).symm⟩
  · rw [update_of_ne hi] at h
    cases h

theorem SplitsOk.empty : SplitsOk rootBirth (fun _ => []) where
  root := update_self _ _ _
  desc := by
    intro i d h
    obtain ⟨rfl, rfl⟩ := rootBirth_eq h
    exact ⟨rfl, le_refl _, .inl rfl⟩
  born := nofun
  unique := nofun
  notRoot := nofun
  known := fun h => absurd rfl h
  origin := by
    intro c h
    obtain ⟨d, hd⟩ := ne_none_iff_exists'.mp h
    exact .inl (rootBirth_eq hd).1
  apart := by
    intro i j d e key hi hj _ _
    rw [(rootBirth_eq hi).1, (rootBirth_eq hj).1]

theorem NodeOk.bootstrap : NodeOk rootBirth (fun _ => []) Node.bootstrap := by
  refine ⟨fun {i g} hg => ?_, ?_, fun {c} hc => ?_, fun {c} hc => ?_, fun {c} hc => absurd rfl hc⟩
  · obtain ⟨rfl, rfl⟩ := eq_of_bootstrap_lookup hg
    refine ⟨⟨1, [], []⟩, SplitsOk.empty.root, Nat.zero_le _, rfl, fun _ => rfl, ?_, ?_⟩
    · exact nofun
    · exact nofun
  · have hown : ∀ i, (Node.bootstrap.groups.lookup i).map Group.routed = rootBirth i := by
      intro i
      rw [bootstrap_lookup]
      unfold rootBirth
      by_cases hi : i = 1
      · rw [if_pos hi, hi, update_self]
        rfl
      · rw [if_neg hi, update_of_ne hi]
        rfl
    simp only [hown]
    refine ⟨⟨fun key => ⟨1, _, SplitsOk.empty.root, ?_⟩, SplitsOk.empty.apart, ?_⟩, ?_, ?_⟩
    · exact ⟨le_of_not_gt (not_lt_nil _), .inl rfl⟩
    · exact fun hi => (SplitsOk.empty.desc hi).2
    · intro start i
      have hrouting : Node.bootstrap.routing = [([], 1)] := rfl
      rw [hrouting, mem_singleton]
      constructor
      · intro heq
        cases heq
        exact ⟨_, SplitsOk.empty.root, rfl⟩
      · rintro ⟨d, hd, rfl⟩
        obtain ⟨rfl, rfl⟩ := rootBirth_eq hd
        rfl
    · exact pairwise_singleton _ _
  · by_contra hno
    refine hc ?_
    show update (fun _ => none) 1 (some (⟨1, [], []⟩ : RangeDesc)) c = none
    rw [update_of_ne (fun heq => hno (.inl heq))]
  · obtain ⟨g, hg⟩ := ne_none_iff_exists'.mp hc
    exact .inl (eq_of_bootstrap_lookup hg).1

theorem RangesOk.boot : RangesOk {} :=
  ⟨.empty, fun _ => .bootstrap, nofun, nofun⟩

/-- They are in order in every state of such a run. -/
theorem RangesOk.run {es : List Event} {s : Cluster}
    (hrun : Machine.run Cluster.step {} es = some s)
    (hfresh : Machine.Along Cluster.step (fun s e => freshChild s e = true) {} es) :
    RangesOk s :=
  Machine.run_induction (fun _ _ _ h hf hstep => h.step hf (Cluster.moves_of_step hstep)) .boot
    hfresh hrun

end Flotilla.Server
