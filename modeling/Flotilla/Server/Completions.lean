/-
  Server.Completions — which waiter a completion reaches.

  `proposals_` has one place for an index.  A node that leads again may propose
  at an index for which a caller of an earlier term still waits: the new proposal
  takes the place of the old one, and when the old caller's time is up it clears
  the place of the new one.
-/
import Flotilla.Server.Waiters

namespace Flotilla.Server

open Flotilla.Raft

/-! ## Callers. -/

inductive Standing where
  | waiting
  | told (outcome : Outcome)
  /-- `Timeout`, or the node has stopped. -/
  | gone
  deriving DecidableEq

/-- A call of `ProposeAndWait`. -/
structure Waiter where
  node : NodeId
  index : Nat
  term : Nat
  command : Bytes
  standing : Standing := .waiting
  deriving DecidableEq

structure WaitingGroup where
  group : ReplicaGroup
  waiters : List Waiter := []
  /-- The waiter whose `PendingProposal` stands in `proposals_` of the node. -/
  owner : NodeId → Nat → Option Nat := fun _ _ => none

inductive WaitEvent where
  | host (e : GroupEvent)
  /-- `wait_until` of a waiter returns with a timeout. -/
  | expire (w : Nat)

namespace WaitingGroup

def boot (cfg : NodeId → Config) : WaitingGroup := ⟨ReplicaGroup.boot cfg, [], fun _ _ => none⟩

def setOwner (s : WaitingGroup) (n : NodeId) (index : Nat) (w : Option Nat) : WaitingGroup :=
  { s with owner := Function.update s.owner n (Function.update (s.owner n) index w) }

def setStanding (s : WaitingGroup) (w : Nat) (standing : Standing) : WaitingGroup :=
  { s with waiters := s.waiters.modify w fun x => { x with standing := standing } }

/-- The index at which the node would propose now. -/
def nextIndex (s : WaitingGroup) (n : NodeId) : Nat := (s.group.cluster.nodes n).raft.lastIndex + 1

/-- `proposals_[index] = pending`: whoever stood there stands there no more. -/
def register (s : WaitingGroup) (n : NodeId) (command : Bytes) : WaitingGroup :=
  let x : Waiter := ⟨n, s.nextIndex n, (s.group.cluster.nodes n).raft.hard.term, command, .waiting⟩
  { s with waiters := s.waiters ++ [x] }.setOwner n (s.nextIndex n) (some s.waiters.length)

/-- `it->second->done = true`, and the place is cleared. -/
def tell (s : WaitingGroup) (n : NodeId) (e : LogEntry) : WaitingGroup :=
  match s.owner n e.index with
  | none => s
  | some w =>
      let outcome := match s.waiters[w]? with
        | some x => if x.term = e.term then Outcome.logical else .superseded
        | none => .superseded
      (s.setStanding w (.told outcome)).setOwner n e.index none

/-- Nobody waits on a node that has stopped. -/
def stop (s : WaitingGroup) (n : NodeId) : WaitingGroup :=
  { s with
    waiters := s.waiters.map fun x =>
      if x.node = n ∧ x.standing = .waiting then { x with standing := .gone } else x
    owner := Function.update s.owner n fun _ => none }

def step (M : Membership) (s : WaitingGroup) : WaitEvent → Option WaitingGroup
  | .expire w =>
      match s.waiters[w]? with
      | none => none
      | some x =>
          if x.standing = .waiting then
            (s.group.step M (.timeout x.node x.index)).map fun g =>
              { (s.setStanding w .gone).setOwner x.node x.index none with group := g }
          else none
  | .host (.timeout _ _) => none
  | .host (.proposeAndWait n command) =>
      (s.group.step M (.proposeAndWait n command)).map fun g =>
        { s.register n command with group := g }
  | .host (.complete n) =>
      (s.group.step M (.complete n)).map fun g =>
        match (s.group.hosts n).counted with
        | none => { s with group := g }
        | some e => { s.tell n e with group := g }
  | .host (.restart n cfg) =>
      (s.group.step M (.restart n cfg)).map fun g => { s.stop n with group := g }
  | .host e => (s.group.step M e).map fun g => { s with group := g }

/-- The places are those of `proposals_`. -/
structure Synced (s : WaitingGroup) : Prop where
  taken : ∀ n index w, s.owner n index = some w → ∃ x, s.waiters[w]? = some x ∧ x.node = n ∧
    x.index = index ∧ x.standing = .waiting ∧
    (s.group.hosts n).proposals index = some ⟨x.term, x.command⟩
  clear : ∀ n index, s.owner n index = none → (s.group.hosts n).proposals index = none

/-- Every waiter that waits has its place. -/
def Registered (s : WaitingGroup) : Prop :=
  ∀ w x, s.waiters[w]? = some x → x.standing = .waiting → s.owner x.node x.index = some w

/-- No node proposes at an index for which somebody waits there. -/
def Unused (s : WaitingGroup) : WaitEvent → Prop
  | .host (.proposeAndWait n _) =>
      ∀ x ∈ s.waiters, x.node = n → x.standing = .waiting → x.index ≠ s.nextIndex n
  | _ => True

/-! ## Places and standings. -/

theorem update_place {α : Type} (f : NodeId → Nat → α) (n : NodeId) (index : Nat) (x : α)
    (p : NodeId) (i : Nat) :
    update f n (update (f n) index x) p i =
      if p = n ∧ i = index then x else f p i := by
  by_cases hn : p = n
  · subst hn
    rw [update_self, update_apply]
    simp
  · rw [update_of_ne hn, if_neg fun h => hn h.1]

theorem setOwner_owner (s : WaitingGroup) (n : NodeId) (index : Nat) (w : Option Nat)
    (n' : NodeId) (index' : Nat) :
    (s.setOwner n index w).owner n' index' =
      if n' = n ∧ index' = index then w else s.owner n' index' :=
  update_place ..

theorem setStanding_get (s : WaitingGroup) (w : Nat) (standing : Standing) (w' : Nat) :
    (s.setStanding w standing).waiters[w']? =
      (s.waiters[w']?).map fun x => if w = w' then { x with standing := standing } else x :=
  List.getElem?_modify ..

theorem register_owner (s : WaitingGroup) (n : NodeId) (command : Bytes) (p : NodeId) (i : Nat) :
    (s.register n command).owner p i =
      if p = n ∧ i = s.nextIndex n then some s.waiters.length else s.owner p i :=
  setOwner_owner ..

/-! ## What the steps of the group do to `proposals_`. -/

section Proposals

variable {M : Membership} {g g' : ReplicaGroup}

theorem proposals_setHost (g : ReplicaGroup) (n p : NodeId) (h : GroupHost)
    (hsame : h.proposals = (g.hosts n).proposals) :
    ((g.setHost n h).hosts p).proposals = (g.hosts p).proposals := by
  show (update g.hosts n h p).proposals = _
  by_cases hp : p = n
  · subst hp
    rw [update_self, hsame]
  · rw [update_of_ne hp]

theorem proposals_setPlace (g : ReplicaGroup) {n : NodeId} {h : GroupHost} {index : Nat}
    {x} (hset : h.proposals = update (g.hosts n).proposals index x)
    (p : NodeId) (i : Nat) : ((g.setHost n h).hosts p).proposals i =
      if p = n ∧ i = index then x else (g.hosts p).proposals i := by
  rw [← update_place (fun p => (g.hosts p).proposals) n index x p i, ← hset]
  show (update g.hosts n h p).proposals i = _
  by_cases hp : p = n
  · rw [hp, update_self, update_self]
  · rw [update_of_ne hp, update_of_ne hp]

theorem proposals_drive {e : Raft.Event} (h : g.drive M e = some g') (p : NodeId) :
    (g'.hosts p).proposals = (g.hosts p).proposals := by
  obtain ⟨⟨cluster, o⟩, _, heq⟩ := map_eq_some_iff.mp h
  cases heq
  exact proposals_setHost ⟨cluster, g.hosts⟩ o.node p _ rfl

/-- The events that leave `proposals_` alone. -/
def Quiet : GroupEvent → Prop
  | .proposeAndWait _ _ => False
  | .timeout _ _ => False
  | .complete _ => False
  | .restart _ _ => False
  | _ => True

theorem proposals_quiet {e : GroupEvent} (hquiet : Quiet e) (h : g.step M e = some g')
    (p : NodeId) : (g'.hosts p).proposals = (g.hosts p).proposals := by
  cases e with
  | tick n | deliver k | readIndex n ctx => exact proposals_drive h p
  | proposeAndWait n command | timeout n index | complete n | restart n cfg => exact hquiet.elim
  | take n =>
    obtain ⟨host, hhost, heq⟩ := map_eq_some_iff.mp h
    cases heq
    apply proposals_setHost
    unfold GroupHost.take at hhost
    split at hhost
    · obtain ⟨a, _, heq⟩ := map_eq_some_iff.mp hhost
      cases heq
      rfl
    · cases hhost
  | next n fatal =>
    obtain ⟨host, hhost, heq⟩ := map_eq_some_iff.mp h
    cases heq
    apply proposals_setHost
    unfold GroupHost.next at hhost
    split at hhost
    · obtain ⟨a, _, heq⟩ := map_eq_some_iff.mp hhost
      cases heq
      rfl
    · cases hhost
  | maybeSnapshot n data saved =>
    unfold ReplicaGroup.step at h
    dsimp only at h
    split at h
    · split at h
      · cases h
        rfl
      · exact proposals_drive h p
    · cases h

theorem proposals_timeout {n : NodeId} {index : Nat} (h : g.step M (.timeout n index) = some g')
    (p : NodeId) (i : Nat) : (g'.hosts p).proposals i =
      if p = n ∧ i = index then none else (g.hosts p).proposals i := by
  cases h
  exact proposals_setPlace g rfl p i

theorem proposals_propose {n : NodeId} {command : Bytes}
    (h : g.step M (.proposeAndWait n command) = some g') (p : NodeId) (i : Nat) :
    (g'.hosts p).proposals i =
      if p = n ∧ i = (g.cluster.nodes n).raft.lastIndex + 1 then
        some ⟨(g.cluster.nodes n).raft.hard.term, command⟩
      else (g.hosts p).proposals i := by
  obtain ⟨g₁, hdrive, heq⟩ := map_eq_some_iff.mp h
  have hsame := proposals_drive hdrive
  cases heq
  rw [← hsame p]
  exact proposals_setPlace g₁ rfl p i

theorem proposals_restart {n : NodeId} {cfg : Config} (h : g.step M (.restart n cfg) = some g')
    (p : NodeId) (i : Nat) :
    (g'.hosts p).proposals i = if p = n then none else (g.hosts p).proposals i := by
  obtain ⟨g₁, hdrive, heq⟩ := map_eq_some_iff.mp h
  have hsame := proposals_drive hdrive
  cases heq
  show (update g₁.hosts n ((g₁.hosts n).init _) p).proposals i = _
  by_cases hp : p = n
  · subst hp
    rw [update_self, if_pos rfl]
    rfl
  · rw [update_of_ne hp, if_neg hp, hsame p]

theorem proposals_complete {n : NodeId} (h : g.step M (.complete n) = some g') :
    ∃ e, (g.hosts n).counted = some e ∧
      (∀ p i, (g'.hosts p).proposals i =
        if p = n ∧ i = e.index then none else (g.hosts p).proposals i) ∧
      ∀ pending, (g.hosts n).proposals e.index = some pending →
        (g'.hosts n).completions = (g.hosts n).completions ++
          [⟨pending, e, if pending.term = e.term then Outcome.logical else .superseded⟩] := by
  obtain ⟨host, hhost, heq⟩ := map_eq_some_iff.mp h
  cases heq
  unfold GroupHost.complete at hhost
  cases hcounted : (g.hosts n).counted with
  | none => simp [hcounted] at hhost
  | some e =>
    simp only [hcounted] at hhost
    refine ⟨e, rfl, fun p i => ?_, fun pending hpending => ?_⟩
    · refine proposals_setPlace g ?_ p i
      cases hplace : (g.hosts n).proposals e.index with
      | none =>
        simp only [hplace, Option.some.injEq] at hhost
        rw [← hhost, ← hplace, update_eq_self]
      | some pending =>
        simp only [hplace, Option.some.injEq] at hhost
        rw [← hhost]
        rfl
    · simp only [hpending, Option.some.injEq] at hhost
      show (update g.hosts n host n).completions = _
      rw [update_self, ← hhost]

end Proposals

/-! ## Steps. -/

variable {M : Membership} {s s' : WaitingGroup}

theorem step_expire {w : Nat} (h : s.step M (.expire w) = some s') :
    ∃ x g, s.waiters[w]? = some x ∧ x.standing = .waiting ∧
      s.group.step M (.timeout x.node x.index) = some g ∧
      s' = { (s.setStanding w .gone).setOwner x.node x.index none with group := g } := by
  simp only [step] at h
  split at h
  · cases h
  · rename_i x hx
    split at h
    · rename_i hwaiting
      obtain ⟨g, hg, heq⟩ := map_eq_some_iff.mp h
      exact ⟨x, g, hx, hwaiting, hg, heq.symm⟩
    · cases h

theorem step_complete {n : NodeId} (h : s.step M (.host (.complete n)) = some s') :
    ∃ g e, s.group.step M (.complete n) = some g ∧ (s.group.hosts n).counted = some e ∧
      s' = { s.tell n e with group := g } := by
  obtain ⟨g, hg, heq⟩ := map_eq_some_iff.mp h
  obtain ⟨e, hcounted, _⟩ := proposals_complete hg
  rw [hcounted] at heq
  exact ⟨g, e, hg, hcounted, heq.symm⟩

theorem step_quiet {e : GroupEvent} (hquiet : Quiet e) (h : s.step M (.host e) = some s') :
    ∃ g, s.group.step M e = some g ∧ s' = { s with group := g } := by
  have hstep : (s.group.step M e).map (fun g => ({ s with group := g } : WaitingGroup)) =
      some s' := by
    cases e with
    | proposeAndWait n command | timeout n index | complete n | restart n cfg => exact hquiet.elim
    | tick n | deliver k | readIndex n ctx | take n | next n fatal
    | maybeSnapshot n data saved => exact h
  obtain ⟨g, hg, heq⟩ := map_eq_some_iff.mp hstep
  exact ⟨g, hg, heq.symm⟩

theorem Synced.vacate (h : s.Synced) {n : NodeId} {index w : Nat} {standing : Standing}
    {g : ReplicaGroup} (hw : ∀ x, s.waiters[w]? = some x → x.node = n ∧ x.index = index)
    (hg : ∀ p i, (g.hosts p).proposals i =
      if p = n ∧ i = index then none else (s.group.hosts p).proposals i) :
    ({ (s.setStanding w standing).setOwner n index none with group := g } : WaitingGroup).Synced := by
  constructor
  · intro p i v hv
    have howner := setOwner_owner (s.setStanding w standing) n index none p i
    rw [show (s.setStanding w standing).owner = s.owner from rfl] at howner
    have hother : ¬ (p = n ∧ i = index) := by
      intro hplace
      rw [if_pos hplace] at howner
      cases howner.symm.trans hv
    rw [if_neg hother] at howner
    obtain ⟨x, hx, hnode, hindex, hwaiting, hplace⟩ := h.taken p i v (howner.symm.trans hv)
    -- the waiter at another place is another waiter
    have hne : w ≠ v := by
      intro hwv
      subst hwv
      exact hother ⟨hnode.symm.trans (hw x hx).1, hindex.symm.trans (hw x hx).2⟩
    refine ⟨x, ?_, hnode, hindex, hwaiting, ?_⟩
    · show (s.setStanding w standing).waiters[v]? = some x
      rw [setStanding_get, hx, map_some, if_neg hne]
    · show (g.hosts p).proposals i = _
      rw [hg, if_neg hother, hplace]
  · intro p i hnone
    show (g.hosts p).proposals i = none
    rw [hg]
    by_cases hplace : p = n ∧ i = index
    · rw [if_pos hplace]
    · rw [if_neg hplace]
      have howner := setOwner_owner (s.setStanding w standing) n index none p i
      rw [if_neg hplace] at howner
      exact h.clear p i (howner.symm.trans hnone)

/-- Hosts and waiters change together. -/
theorem Synced.step (h : s.Synced) {ev : WaitEvent} (hstep : s.step M ev = some s') :
    s'.Synced := by
  cases ev with
  | expire w =>
    obtain ⟨x, g, hx, _, hg, rfl⟩ := step_expire hstep
    refine h.vacate (fun y hy => ?_) (proposals_timeout hg)
    cases hx.symm.trans hy
    exact ⟨rfl, rfl⟩
  | host e =>
    by_cases hquiet : Quiet e
    · obtain ⟨g, hg, rfl⟩ := step_quiet hquiet hstep
      have hsame := proposals_quiet hquiet hg
      constructor
      · intro p i v hv
        show ∃ x, s.waiters[v]? = some x ∧ _ ∧ _ ∧ _ ∧ (g.hosts p).proposals i = _
        rw [hsame p]
        exact h.taken p i v hv
      · intro p i hnone
        show (g.hosts p).proposals i = none
        rw [hsame p]
        exact h.clear p i hnone
    · cases e with
      | tick n | deliver k | readIndex n ctx | take n | next n fatal
      | maybeSnapshot n data saved => exact absurd trivial hquiet
      | timeout n index => cases hstep
      | complete n =>
        obtain ⟨g, e, hg, hcounted, rfl⟩ := step_complete hstep
        obtain ⟨e', hcounted', hplaces, _⟩ := proposals_complete hg
        cases hcounted.symm.trans hcounted'
        unfold tell
        cases howner : s.owner n e.index with
        | none =>
          -- nobody stands there, so the place was clear
          constructor
          · intro p i v hv
            have hother : ¬ (p = n ∧ i = e.index) := by
              rintro ⟨rfl, rfl⟩
              cases howner.symm.trans hv
            show ∃ x, s.waiters[v]? = some x ∧ _ ∧ _ ∧ _ ∧ (g.hosts p).proposals i = _
            rw [hplaces, if_neg hother]
            exact h.taken p i v hv
          · intro p i hnone
            show (g.hosts p).proposals i = none
            rw [hplaces]
            split
            · rfl
            · exact h.clear p i hnone
        | some w =>
          refine h.vacate (fun y hy => ?_) hplaces
          obtain ⟨x, hx, hnode, hindex, _⟩ := h.taken n e.index w howner
          cases hx.symm.trans hy
          exact ⟨hnode, hindex⟩
      | proposeAndWait n command =>
        obtain ⟨g, hg, rfl⟩ := map_eq_some_iff.mp hstep
        have hplaces : ∀ p i, (g.hosts p).proposals i = if p = n ∧ i = s.nextIndex n then
            some ⟨(s.group.cluster.nodes n).raft.hard.term, command⟩
          else (s.group.hosts p).proposals i := proposals_propose hg
        constructor
        · intro p i v hv
          have hv := (register_owner s n command p i).symm.trans hv
          show ∃ x, (s.waiters ++ [_])[v]? = some x ∧ _ ∧ _ ∧ _ ∧ (g.hosts p).proposals i = _
          rw [hplaces]
          by_cases hplace : p = n ∧ i = s.nextIndex n
          · rw [if_pos hplace] at hv
            cases hv
            rw [if_pos hplace]
            refine ⟨⟨n, s.nextIndex n, (s.group.cluster.nodes n).raft.hard.term, command,
              .waiting⟩, ?_, hplace.1.symm, hplace.2.symm, rfl, rfl⟩
            rw [List.getElem?_append_right le_rfl, Nat.sub_self]
            rfl
          · rw [if_neg hplace] at hv
            obtain ⟨x, hx, hrest⟩ := h.taken p i v hv
            have hlt : v < s.waiters.length := (getElem?_eq_some_iff.mp hx).1
            rw [if_neg hplace]
            refine ⟨x, ?_, hrest⟩
            rw [getElem?_append_left hlt, hx]
        · intro p i hnone
          have hnone := (register_owner s n command p i).symm.trans hnone
          show (g.hosts p).proposals i = none
          rw [hplaces]
          by_cases hplace : p = n ∧ i = s.nextIndex n
          · rw [if_pos hplace] at hnone
            cases hnone
          · rw [if_neg hplace] at hnone
            rw [if_neg hplace]
            exact h.clear p i hnone
      | restart n cfg =>
        obtain ⟨g, hg, rfl⟩ := map_eq_some_iff.mp hstep
        have hplaces := proposals_restart hg
        constructor
        · intro p i v hv
          have hv : update s.owner n (fun _ => none) p i = some v := hv
          by_cases hp : p = n
          · subst hp
            rw [update_self] at hv
            cases hv
          · rw [update_of_ne hp] at hv
            obtain ⟨x, hx, hnode, hindex, hwaiting, hplace⟩ := h.taken p i v hv
            refine ⟨x, ?_, hnode, hindex, hwaiting, ?_⟩
            · show (s.waiters.map _)[v]? = some x
              rw [List.getElem?_map, hx, map_some,
                if_neg fun hboth => hp (hnode.symm.trans hboth.1)]
            · show (g.hosts p).proposals i = _
              rw [hplaces, if_neg hp, hplace]
        · intro p i hnone
          have hnone : update s.owner n (fun _ => none) p i = none := hnone
          show (g.hosts p).proposals i = none
          rw [hplaces]
          by_cases hp : p = n
          · rw [if_pos hp]
          · rw [if_neg hp]
            rw [update_of_ne hp] at hnone
            exact h.clear p i hnone

theorem Registered.vacate (hreg : s.Registered) {n : NodeId} {index w : Nat} {standing : Standing}
    (hstanding : standing ≠ .waiting) (howner : s.owner n index = some w) :
    ((s.setStanding w standing).setOwner n index none).Registered := by
  intro v x hx hwaiting
  have hx : (s.setStanding w standing).waiters[v]? = some x := hx
  rw [setStanding_get] at hx
  obtain ⟨y, hy, heq⟩ := map_eq_some_iff.mp hx
  by_cases hv : w = v
  · rw [if_pos hv] at heq
    rw [← heq] at hwaiting
    exact absurd hwaiting hstanding
  · rw [if_neg hv] at heq
    subst heq
    have hplace := hreg v y hy hwaiting
    rw [setOwner_owner, if_neg]
    · exact hplace
    · rintro ⟨hn, hi⟩
      rw [hn, hi, howner] at hplace
      exact hv (Option.some.inj hplace)

/-- A waiter keeps its place, as long as its index is not used again. -/
theorem Registered.step (hreg : s.Registered) {ev : WaitEvent}
    (hunused : s.Unused ev) (hstep : s.step M ev = some s') : s'.Registered := by
  cases ev with
  | expire w =>
    obtain ⟨x, g, hx, hwaiting, _, rfl⟩ := step_expire hstep
    exact hreg.vacate (by decide) (hreg w x hx hwaiting)
  | host e =>
    by_cases hquiet : Quiet e
    · obtain ⟨g, _, rfl⟩ := step_quiet hquiet hstep
      exact hreg
    · cases e with
      | tick n | deliver k | readIndex n ctx | take n | next n fatal
      | maybeSnapshot n data saved => exact absurd trivial hquiet
      | timeout n index => cases hstep
      | complete n =>
        obtain ⟨g, e, _, _, rfl⟩ := step_complete hstep
        show (s.tell n e).Registered
        unfold tell
        cases howner : s.owner n e.index with
        | none => exact hreg
        | some w => exact hreg.vacate (by simp) howner
      | proposeAndWait n command =>
        obtain ⟨g, _, rfl⟩ := map_eq_some_iff.mp hstep
        show (s.register n command).Registered
        intro v x hx hwaiting
        rw [register_owner]
        have hx : (s.waiters ++ [⟨n, s.nextIndex n, (s.group.cluster.nodes n).raft.hard.term,
          command, .waiting⟩])[v]? = some x := hx
        by_cases hlt : v < s.waiters.length
        · rw [getElem?_append_left hlt] at hx
          -- an older waiter waits for another index, or elsewhere
          rw [if_neg fun hplace => hunused x (mem_of_getElem? hx) hplace.1 hwaiting hplace.2]
          exact hreg v x hx hwaiting
        · rw [List.getElem?_append_right (Nat.le_of_not_lt hlt)] at hx
          have hv : v - s.waiters.length = 0 := by
            have hbound := (getElem?_eq_some_iff.mp hx).1
            simp only [length_singleton] at hbound
            omega
          rw [hv] at hx
          cases hx
          rw [if_pos ⟨rfl, rfl⟩]
          exact congrArg some (by omega)
      | restart n cfg =>
        obtain ⟨g, _, rfl⟩ := map_eq_some_iff.mp hstep
        show (s.stop n).Registered
        intro v x hx hwaiting
        have hx : (s.waiters.map fun x => if x.node = n ∧ x.standing = .waiting then
          { x with standing := .gone } else x)[v]? = some x := hx
        rw [List.getElem?_map] at hx
        obtain ⟨y, hy, heq⟩ := map_eq_some_iff.mp hx
        by_cases hstop : y.node = n ∧ y.standing = .waiting
        · rw [if_pos hstop] at heq
          rw [← heq] at hwaiting
          cases hwaiting
        · rw [if_neg hstop] at heq
          subst heq
          have hother : y.node ≠ n := fun hn => hstop ⟨hn, hwaiting⟩
          show update s.owner n (fun _ => none) y.node y.index = some v
          rw [update_of_ne hother]
          exact hreg v y hy hwaiting

end WaitingGroup

/-! ## Runs. -/

/-- **A completion reaches its waiter.**  As long as no node proposes at an index for which a caller
on it still waits, every caller that waits has its place, and when the loop comes to the entry that
it proposed, it is told that entry's result. -/
theorem completion_reaches_waiter {M : Membership} {cfg : NodeId → Config} {es : List WaitEvent}
    {s s' : WaitingGroup} {n : NodeId} {e : LogEntry} {w : Nat} {x : Waiter}
    (hunused : Machine.Along (WaitingGroup.step M) WaitingGroup.Unused (WaitingGroup.boot cfg) es)
    (hrun : Machine.run (WaitingGroup.step M) (WaitingGroup.boot cfg) es = some s)
    (hx : s.waiters[w]? = some x) (hwaiting : x.standing = .waiting) (hnode : x.node = n)
    (hcounted : (s.group.hosts n).counted = some e) (hindex : x.index = e.index)
    (hterm : x.term = e.term) (hstep : s.step M (.host (.complete n)) = some s') :
    s.owner n e.index = some w ∧
      (s.group.hosts n).proposals e.index = some ⟨x.term, x.command⟩ ∧
      s'.waiters[w]? = some { x with standing := .told .logical } ∧
      (s'.group.hosts n).completions =
        (s.group.hosts n).completions ++ [⟨⟨x.term, x.command⟩, e, .logical⟩] := by
  have hinv : s.Synced ∧ s.Registered := by
    refine Machine.run_induction (I := fun s => s.Synced ∧ s.Registered) ?_ ?_ hunused hrun
    · intro s ev s' hs hev hstep
      exact ⟨hs.1.step hstep, hs.2.step hev hstep⟩
    · refine ⟨⟨fun _ _ _ h => (by cases h), fun _ _ _ => rfl⟩, fun w x hx => ?_⟩
      cases hx
  have howner : s.owner n e.index = some w := by
    have hplace := hinv.2 w x hx hwaiting
    rwa [hnode, hindex] at hplace
  have hproposal : (s.group.hosts n).proposals e.index = some ⟨x.term, x.command⟩ := by
    obtain ⟨y, hy, _, _, _, hplace⟩ := hinv.1.taken n e.index w howner
    cases hx.symm.trans hy
    exact hplace
  obtain ⟨g, e', hg, hcounted', rfl⟩ := WaitingGroup.step_complete hstep
  cases hcounted.symm.trans hcounted'
  obtain ⟨e', hcounted', _, htold⟩ := WaitingGroup.proposals_complete hg
  cases hcounted.symm.trans hcounted'
  refine ⟨howner, hproposal, ?_, ?_⟩
  · show (s.tell n e).waiters[w]? = _
    unfold WaitingGroup.tell
    rw [howner]
    show (s.setStanding w _).waiters[w]? = _
    rw [WaitingGroup.setStanding_get, hx, map_some, if_pos rfl]
    dsimp only
    rw [if_pos hterm]
  · have hlast := htold _ hproposal
    rw [if_pos hterm] at hlast
    exact hlast

/-- The loop on node 1 applies the next entry and counts it. -/
def applyOne : List WaitEvent := List.replicate 3 (.host (.next 1 false))

/-- Node 1 leads, proposes, replicates to node 2 and comes to the entry of its proposal. -/
def proposedAndCounted : List WaitEvent :=
  ([.tick 1, .deliver 0, .deliver 2, .proposeAndWait 1 [7], .deliver 5, .deliver 7, .take 1] :
    List GroupEvent).map .host ++ applyOne ++ [.host (.complete 1)] ++ applyOne

instance WaitingGroup.Unused.decidable (s : WaitingGroup) (ev : WaitEvent) :
    Decidable (s.Unused ev) := by
  unfold WaitingGroup.Unused
  split <;> infer_instance

theorem completion_reaches_waiter_leader : ∃ s s' x e,
    Machine.run (WaitingGroup.step threeNodes) (WaitingGroup.boot (eagerConfig 10))
        proposedAndCounted = some s ∧
      s.waiters[0]? = some x ∧ x = ⟨1, 2, 1, [7], .waiting⟩ ∧
      (s.group.hosts 1).counted = some e ∧ e = ⟨1, 2, [7]⟩ ∧
      s.step threeNodes (.host (.complete 1)) = some s' ∧
      s'.waiters[0]? = some { x with standing := .told .logical } := by
  obtain ⟨s, hrun, hx, hcounted, s', hstep, _⟩ : ∃ s, Machine.run (WaitingGroup.step threeNodes)
      (WaitingGroup.boot (eagerConfig 10)) proposedAndCounted = some s ∧
        s.waiters[0]? = some ⟨1, 2, 1, [7], .waiting⟩ ∧
        (s.group.hosts 1).counted = some ⟨1, 2, [7]⟩ ∧
        ∃ s', s.step threeNodes (.host (.complete 1)) = some s' ∧ True := by decide +kernel
  have hunused : Machine.Along (WaitingGroup.step threeNodes) WaitingGroup.Unused
      (WaitingGroup.boot (eagerConfig 10)) proposedAndCounted := by decide +kernel
  refine ⟨s, s', _, _, hrun, hx, rfl, hcounted, rfl, hstep, ?_⟩
  exact (completion_reaches_waiter hunused hrun hx rfl rfl hcounted rfl rfl hstep).2.2.1

/-- Node 1 leads the first term and proposes at indexes 2 and 3; node 2 leads the second term and
cuts both off; node 1 leads the third term and proposes at index 3 again. -/
def indexProposedAgain : List WaitEvent :=
  ([.tick 1, .deliver 0, .deliver 2, .proposeAndWait 1 [7], .proposeAndWait 1 [9], .tick 2,
    .deliver 10, .deliver 11, .deliver 12, .tick 1, .deliver 16, .deliver 17,
    .proposeAndWait 1 [5]] : List GroupEvent).map .host

/-- The time of the first caller at index 3 is up; then the entry of the second is replicated,
committed, applied and counted. -/
def firstExpires : List WaitEvent :=
  .expire 1 :: ([.deliver 21, .deliver 22, .deliver 23, .deliver 24, .take 1] :
    List GroupEvent).map .host ++ applyOne ++ [.host (.complete 1)] ++ applyOne ++
    [.host (.complete 1)] ++ applyOne

/-- **A completion that is lost**: the third caller waits, its own entry is applied and counted, and
the loop finds nobody to tell. -/
theorem completion_lost : ∃ s s',
    Machine.run (WaitingGroup.step threeNodes) (WaitingGroup.boot (eagerConfig 10))
        (indexProposedAgain ++ firstExpires) = some s ∧
      s.waiters[2]? = some ⟨1, 3, 3, [5], .waiting⟩ ∧
      (s.group.hosts 1).counted = some ⟨3, 3, [5]⟩ ∧
      (s.group.hosts 1).applier.appliedIndex = 3 ∧
      s.step threeNodes (.host (.complete 1)) = some s' ∧
      s'.waiters[2]? = some ⟨1, 3, 3, [5], .waiting⟩ ∧
      (s'.group.hosts 1).completions.map (fun c => c.proposal.command) = [[7]] ∧
      s'.owner 1 3 = none := by
  obtain ⟨s, hrun, hwaiting, hcounted, happlied, s', hthen⟩ : ∃ s,
      Machine.run (WaitingGroup.step threeNodes) (WaitingGroup.boot (eagerConfig 10))
          (indexProposedAgain ++ firstExpires) = some s ∧
        s.waiters[2]? = some ⟨1, 3, 3, [5], .waiting⟩ ∧
        (s.group.hosts 1).counted = some ⟨3, 3, [5]⟩ ∧
        (s.group.hosts 1).applier.appliedIndex = 3 ∧
        ∃ s', s.step threeNodes (.host (.complete 1)) = some s' ∧
          s'.waiters[2]? = some ⟨1, 3, 3, [5], .waiting⟩ ∧
          (s'.group.hosts 1).completions.map (fun c => c.proposal.command) = [[7]] ∧
          s'.owner 1 3 = none := by decide +kernel
  exact ⟨s, s', hrun, hwaiting, hcounted, happlied, hthen⟩

end Flotilla.Server
