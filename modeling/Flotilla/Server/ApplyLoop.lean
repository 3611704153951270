/-
  Server.ApplyLoop — the apply pipeline of one replica.

  `DrainReady` pushes snapshots and committed entries onto two queues.
  `ApplyLoop` takes both at once, restores all the snapshots and then applies the
  entries, skipping those that it has applied.  Every entry is applied, then
  marked in the database, then counted in `applied_index_`; a restart may come
  between any two of these steps.
-/
import Flotilla.Lib.Machine
import Flotilla.Raft.Pending

namespace Flotilla.Server

open Flotilla.Raft

/-! ## The loop. -/

/-- What is done to the state machine. -/
inductive Action where
  | entry (e : LogEntry)
  | snapshot (snap : Snapshot)

/-- Where the state machine stands afterwards. -/
def Action.index : Action → Nat
  | .entry e => e.index
  | .snapshot snap => snap.lastIndex

/-- Between two steps of `ApplyLoop`. -/
inductive Phase where
  | next
  /-- `ApplySnapshot` has returned. -/
  | restored (snap : Snapshot)
  /-- `ApplyCommand` has returned. -/
  | applied (e : LogEntry)
  /-- `PersistAppliedMarker` has returned. -/
  | marked (e : LogEntry)
  /-- The loop has returned with `apply_error_`; `recorded` tells whether the last command it applied
  has its marker. -/
  | failed (recorded : Bool)

/-- The last command applied has its marker. -/
def Phase.recorded : Phase → Bool
  | .applied _ => false
  | .failed recorded => recorded
  | _ => true

structure Applier where
  snapshotQueue : List Snapshot := []
  applyQueue : List LogEntry := []
  /-- What the loop took and has not yet begun. -/
  snaps : List Snapshot := []
  entries : List LogEntry := []
  phase : Phase := .next
  appliedIndex : Nat := 0
  /-- The value of `AppliedKey` in the database. -/
  marker : Nat := 0
  /-- What was done, with the value of `applied_index_` when it began. -/
  actions : List (Nat × Action) := []

namespace Applier

/-- The part of `DrainReady` under `apply_mutex_`. -/
def push (a : Applier) (ready : Ready) : Applier :=
  { a with
    snapshotQueue := a.snapshotQueue ++ ready.snapshotToApply.toList
    applyQueue := a.applyQueue ++ ready.committed }

/-- The loop has done all that it took. -/
def idle (a : Applier) : Bool :=
  match a.phase, a.snaps, a.entries with
  | .next, [], [] => true
  | _, _, _ => false

/-- The swap of the queues. -/
def take (a : Applier) : Option Applier :=
  if a.idle then
    some { a with snaps := a.snapshotQueue, entries := a.applyQueue, snapshotQueue := [],
                  applyQueue := [] }
  else none

/-- `ApplySnapshot`, which ends with the marker. -/
def applySnapshot (a : Applier) (snap : Snapshot) : Applier :=
  { a with
    marker := snap.lastIndex
    actions := a.actions ++ [(a.appliedIndex, .snapshot snap)] }

/-- The next step of the loop; `fatal` tells whether the database fails in it. -/
def next (a : Applier) (fatal : Bool) : Option Applier :=
  match a.phase with
  | .next =>
      match a.snaps, a.entries with
      | snap :: snaps, _ =>
          -- a failed restore aborts the process
          if fatal then none
          else some { a.applySnapshot snap with snaps := snaps, phase := .restored snap }
      | [], [] => none
      | [], e :: entries =>
          if e.index ≤ a.appliedIndex then some { a with entries := entries }
          else if fatal then some { a with phase := .failed true }
          else some { a with
            entries := entries
            phase := .applied e
            actions := a.actions ++ [(a.appliedIndex, .entry e)] }
  | .restored snap =>
      some { a with appliedIndex := max a.appliedIndex snap.lastIndex, phase := .next }
  | .applied e =>
      if fatal then some { a with phase := .failed false }
      else some { a with marker := e.index, phase := .marked e }
  | .marked e => some { a with appliedIndex := e.index, phase := .next }
  | .failed _ => none

/-- `Init`: everything in memory is gone. -/
def init (a : Applier) (snap : Snapshot) : Applier :=
  let a : Applier := { appliedIndex := a.marker, marker := a.marker, actions := a.actions }
  let a := if a.appliedIndex < snap.lastIndex then a.applySnapshot snap else a
  { a with appliedIndex := max a.appliedIndex snap.lastIndex }

end Applier

/-! ## The replica. -/

structure Replica where
  raft : Core
  storage : Storage := {}
  applier : Applier := {}

inductive ReplicaEvent where
  /-- An operation on the core, then `DrainReady`. -/
  | perform (op : Op)
  | take
  | next (fatal : Bool)
  | maybeSnapshot (data : Bytes)
  | restart (cfg : Config)

namespace Replica

def boot (cfg : Config) : Replica := { raft := Core.start cfg {} [] {} }

def step (h : Replica) : ReplicaEvent → Option Replica
  | .perform op =>
      let (ready, r) := (h.raft.perform op).takeReady
      some ⟨r, h.storage.persist ready, h.applier.push ready⟩
  | .take => h.applier.take.map fun a => { h with applier := a }
  | .next fatal => (h.applier.next fatal).map fun a => { h with applier := a }
  | .maybeSnapshot data =>
      -- called by the loop, behind the entries
      if h.applier.idle then
        if h.raft.commit < h.applier.appliedIndex then some h
        else
          let r := h.raft.compactTo h.applier.appliedIndex data
          some { h with raft := r, storage := h.storage.saveSnapshot r.base false }
      else none
  | .restart cfg =>
      some { h with
        raft := Core.start cfg h.storage.hard h.storage.entries h.storage.snap
        applier := h.applier.init h.storage.snap }

end Replica

/-- A snapshot that the core accepts is ahead of all that was applied or emitted; entries follow
one another; the log holds what is compacted; every command has its marker. -/
def ReplicaEvent.Orderly (h : Replica) : ReplicaEvent → Prop
  | .perform (.step m) => m.Sound ∧ (m.kind = .installSnapshot → h.raft.commit < m.snapIndex →
      max h.applier.appliedIndex h.raft.lastEmitted < m.snapIndex)
  | .maybeSnapshot _ =>
      h.applier.appliedIndex ≤ h.raft.commit → h.applier.appliedIndex ≤ h.raft.lastIndex
  | .restart _ => h.applier.phase.recorded = true
  | _ => True

instance (h : Replica) : ∀ e : ReplicaEvent, Decidable (e.Orderly h)
  | .perform (.step m) => inferInstanceAs (Decidable (m.Sound ∧ (_ → _ → _)))
  | .perform .tick => inferInstanceAs (Decidable True)
  | .perform (.propose _) => inferInstanceAs (Decidable True)
  | .perform (.startReadIndex _) => inferInstanceAs (Decidable True)
  | .take => inferInstanceAs (Decidable True)
  | .next _ => inferInstanceAs (Decidable True)
  | .maybeSnapshot _ => inferInstanceAs (Decidable (_ → _))
  | .restart _ => inferInstanceAs (Decidable (_ = true))

/-! ## Order. -/

/-- From `pos` on: `applied_index_` is where the state machine stands, an entry is the next one,
a snapshot is ahead. -/
def InOrder : Nat → List (Nat × Action) → Prop
  | _, [] => True
  | pos, (applied, .entry e) :: rest =>
      applied = pos ∧ e.index = pos + 1 ∧ InOrder e.index rest
  | pos, (applied, .snapshot snap) :: rest =>
      applied = pos ∧ pos < snap.lastIndex ∧ InOrder snap.lastIndex rest

instance InOrder.decidable : ∀ pos actions, Decidable (InOrder pos actions)
  | _, [] => inferInstanceAs (Decidable True)
  | pos, (applied, .entry e) :: rest =>
      have := InOrder.decidable e.index rest
      inferInstanceAs (Decidable (applied = pos ∧ e.index = pos + 1 ∧ InOrder e.index rest))
  | pos, (applied, .snapshot snap) :: rest =>
      have := InOrder.decidable snap.lastIndex rest
      inferInstanceAs (Decidable (applied = pos ∧ pos < snap.lastIndex ∧
        InOrder snap.lastIndex rest))

/-- Where the state machine stands after the actions. -/
def position (pos : Nat) (actions : List (Nat × Action)) : Nat :=
  actions.foldl (fun _ a => a.2.index) pos

theorem position_concat (pos : Nat) (actions : List (Nat × Action)) (a : Nat × Action) :
    position pos (actions ++ [a]) = a.2.index := by
  unfold position
  rw [foldl_append]
  rfl

variable {pos a b : Nat} {actions : List (Nat × Action)} {es : List LogEntry}
  {snaps : List Snapshot}

theorem InOrder.concat (h : InOrder pos actions) {a : Nat × Action}
    (ha : InOrder (position pos actions) [a]) : InOrder pos (actions ++ [a]) := by
  induction actions generalizing pos with
  | nil => exact ha
  | cons first rest ih =>
    obtain ⟨applied, action⟩ := first
    cases action with
    | entry e | snapshot snap => exact ⟨h.1, h.2.1, ih h.2.2 ha⟩

theorem InOrder.head {a : Nat × Action} {rest : List (Nat × Action)} (h : InOrder pos (a :: rest)) :
    pos < a.2.index ∧ InOrder a.2.index rest := by
  obtain ⟨applied, action⟩ := a
  cases action with
  | entry e =>
    have hnext : e.index = pos + 1 := h.2.1
    exact ⟨by show pos < e.index; omega, h.2.2⟩
  | snapshot snap => exact ⟨h.2.1, h.2.2⟩

theorem InOrder.increasing (h : InOrder pos actions) :
    (pos :: actions.map fun a => a.2.index).Pairwise (· < ·) := by
  induction actions generalizing pos with
  | nil => exact pairwise_singleton _ _
  | cons a rest ih =>
    obtain ⟨hlt, hrest⟩ := h.head
    have htail := ih hrest
    rw [map_cons]
    refine .cons ?_ htail
    intro i hi
    rcases mem_cons.mp hi with rfl | hmem
    · exact hlt
    · exact hlt.trans (rel_of_pairwise_cons htail hmem)

theorem InOrder.covers (h : InOrder pos actions) {i : Nat} (hlo : pos < i)
    (hhi : i ≤ position pos actions) :
    (∃ a ∈ actions, ∃ e, a.2 = .entry e ∧ e.index = i) ∨
      ∃ a ∈ actions, ∃ snap, a.2 = .snapshot snap ∧ i ≤ snap.lastIndex := by
  induction actions generalizing pos with
  | nil =>
    have hnone : i ≤ pos := hhi
    omega
  | cons a rest ih =>
    by_cases hi : a.2.index < i
    · rcases ih h.head.2 hi hhi with ⟨b, hb, hrest⟩ | ⟨b, hb, hrest⟩
      · exact .inl ⟨b, mem_cons_of_mem a hb, hrest⟩
      · exact .inr ⟨b, mem_cons_of_mem a hb, hrest⟩
    · obtain ⟨applied, action⟩ := a
      cases action with
      | entry e =>
        have hnext : e.index = pos + 1 := h.2.1
        have hle : ¬ e.index < i := hi
        exact .inl ⟨_, mem_cons_self, e, rfl, by omega⟩
      | snapshot snap => exact .inr ⟨_, mem_cons_self, snap, rfl, not_lt.mp hi⟩

/-! ## What is queued. -/

/-- Entries that are applied from `a` on, with the skipping of the loop, end at `b`. -/
def Reaches : Nat → List LogEntry → Nat → Prop
  | a, [], b => a = b
  | a, e :: es, b => if e.index ≤ a then Reaches a es b else e.index = a + 1 ∧ Reaches e.index es b

/-- Snapshots first, each ahead of the one before. -/
def Drains : Nat → List Snapshot → List LogEntry → Nat → Prop
  | a, [], es, b => Reaches a es b
  | a, snap :: snaps, es, b => a < snap.lastIndex ∧ Drains snap.lastIndex snaps es b

theorem Reaches.bounds (h : Reaches a es b) :
    a ≤ b ∧ ∀ e ∈ es, e.index ≤ b := by
  induction es generalizing a with
  | nil => exact ⟨Nat.le_of_eq h, nofun⟩
  | cons e es ih =>
    unfold Reaches at h
    split at h
    · obtain ⟨hle, hes⟩ := ih h
      refine ⟨hle, fun f hf => ?_⟩
      rcases mem_cons.mp hf with rfl | hmem
      · omega
      · exact hes f hmem
    · obtain ⟨hle, hes⟩ := ih h.2
      refine ⟨by omega, fun f hf => ?_⟩
      rcases mem_cons.mp hf with rfl | hmem
      · exact hle
      · exact hes f hmem

theorem reaches_skip (h : ∀ e ∈ es, e.index ≤ a) :
    Reaches a es a := by
  induction es with
  | nil => rfl
  | cons e es ih =>
    unfold Reaches
    rw [if_pos (h e mem_cons_self)]
    exact ih fun f hf => h f (mem_cons_of_mem e hf)

theorem reaches_contiguous {k : Nat} (hes : Contiguous k es) (hk : k ≤ a) :
    Reaches a es (max a (k + es.length)) := by
  induction es generalizing a k with
  | nil =>
    show a = max a (k + 0)
    omega
  | cons e es ih =>
    have hindex := hes.1
    have hlength : k + (e :: es).length = k + 1 + es.length := by
      rw [length_cons]
      omega
    rw [hlength]
    unfold Reaches
    split
    · exact ih hes.2 (by omega)
    · have hrest := ih (a := e.index) hes.2 (by omega)
      refine ⟨by omega, ?_⟩
      have hmax : max e.index (k + 1 + es.length) = max a (k + 1 + es.length) := by omega
      rw [← hmax]
      exact hrest

theorem Reaches.append {a b : Nat} {es fs : List LogEntry} (h : Reaches a es b) {c : Nat}
    (hfs : Reaches b fs c) : Reaches a (es ++ fs) c := by
  induction es generalizing a with
  | nil =>
    obtain rfl : a = b := h
    exact hfs
  | cons e es ih =>
    rw [cons_append]
    unfold Reaches at h ⊢
    split
    · rename_i hle
      rw [if_pos hle] at h
      exact ih h
    · rename_i hle
      rw [if_neg hle] at h
      exact ⟨h.1, ih h.2⟩

theorem Drains.le (h : Drains a snaps es b) : a ≤ b := by
  induction snaps generalizing a with
  | nil => exact (Reaches.bounds h).1
  | cons snap snaps ih => exact h.1.le.trans (ih h.2)

theorem Drains.push_snapshot (h : Drains a snaps es b) {snap : Snapshot}
    (hsnap : b < snap.lastIndex) :
    Drains a (snaps ++ [snap]) es snap.lastIndex := by
  induction snaps generalizing a with
  | nil =>
    have hbounds := Reaches.bounds h
    exact ⟨by omega, reaches_skip fun e he => (hbounds.2 e he).trans hsnap.le⟩
  | cons first snaps ih => exact ⟨h.1, ih h.2⟩

theorem Drains.push_entries {fs : List LogEntry} (h : Drains a snaps es b) {k : Nat}
    (hfs : Contiguous k fs) (hk : k ≤ b) :
    Drains a snaps (es ++ fs) (max b (k + fs.length)) := by
  induction snaps generalizing a with
  | nil => exact .append h (reaches_contiguous hfs hk)
  | cons snap snaps ih => exact ⟨h.1, ih h.2⟩

/-! ## Every step. -/

/-- What is known between two steps of the loop, with the state machine at `pos`. -/
def Phase.Ok (pos appliedIndex marker : Nat) : Phase → Prop
  | .next => appliedIndex = pos ∧ marker = pos
  | .restored snap => snap.lastIndex = pos ∧ marker = pos
  | .applied e => e.index = pos
  | .marked e => e.index = pos ∧ marker = pos
  | .failed recorded => recorded = true → marker = pos

/-- The history is in order, and what is queued continues it up to the last index emitted. -/
structure Applier.Ok (a : Applier) (lastEmitted : Nat) : Prop where
  history : InOrder 0 a.actions
  applied_le : a.appliedIndex ≤ position 0 a.actions
  phase : a.phase.Ok (position 0 a.actions) a.appliedIndex a.marker
  queued : ∃ mid, Drains (position 0 a.actions) a.snaps a.entries mid ∧
    Drains mid a.snapshotQueue a.applyQueue (max a.appliedIndex lastEmitted)

namespace Applier.Ok

variable {a a' : Applier} {lastEmitted : Nat}

section

variable (h : a.Ok lastEmitted)

include h

theorem push {ready : Ready} {start : Nat}
    (hstart : start = (ready.snapshotToApply.map Snapshot.lastIndex).getD lastEmitted)
    (hcommitted : Contiguous start ready.committed)
    (hsnap : ∀ snap, ready.snapshotToApply = some snap →
      max a.appliedIndex lastEmitted < snap.lastIndex) :
    (a.push ready).Ok (start + ready.committed.length) := by
  obtain ⟨mid, hlocal, hqueue⟩ := h.queued
  refine { h with queued := ⟨mid, hlocal, ?_⟩ }
  show Drains mid (a.snapshotQueue ++ ready.snapshotToApply.toList) (a.applyQueue ++ ready.committed)
    (max a.appliedIndex (start + ready.committed.length))
  cases hready : ready.snapshotToApply with
  | none =>
    rw [hready] at hstart
    have hsame : start = lastEmitted := hstart
    have hpushed := hqueue.push_entries hcommitted (by omega)
    have hend : max (max a.appliedIndex lastEmitted) (start + ready.committed.length) =
        max a.appliedIndex (start + ready.committed.length) := by omega
    rw [hend] at hpushed
    rw [toList_none, append_nil]
    exact hpushed
  | some snap =>
    rw [hready] at hstart
    have hnew : start = snap.lastIndex := hstart
    have hahead := hsnap snap hready
    -- the snapshot is ahead of everything, and the entries follow it
    have hpushed := (hqueue.push_snapshot hahead).push_entries hcommitted (by omega)
    have hend : max snap.lastIndex (start + ready.committed.length) =
        max a.appliedIndex (start + ready.committed.length) := by omega
    rw [hend] at hpushed
    exact hpushed

theorem take (htake : a.take = some a') : a'.Ok lastEmitted := by
  unfold Applier.take at htake
  split at htake
  · rename_i hidle
    obtain ⟨mid, hlocal, hqueue⟩ := h.queued
    have hnothing : a.snaps = [] ∧ a.entries = [] := by
      unfold Applier.idle at hidle
      split at hidle
      · rename_i hs he
        exact ⟨hs, he⟩
      · cases hidle
    rw [hnothing.1, hnothing.2] at hlocal
    obtain rfl : position 0 a.actions = mid := hlocal
    cases htake
    exact { h with queued := ⟨_, hqueue, rfl⟩ }
  · cases htake

theorem catch_up {phase : Phase}
    (hphase : phase.Ok (position 0 a.actions) (position 0 a.actions) a.marker) :
    ({ a with appliedIndex := position 0 a.actions, phase := phase } : Applier).Ok lastEmitted := by
  obtain ⟨mid, hlocal, hqueue⟩ := h.queued
  have hle := hlocal.le.trans hqueue.le
  have happlied := h.applied_le
  have hend : max a.appliedIndex lastEmitted = max (position 0 a.actions) lastEmitted := by omega
  rw [hend] at hqueue
  exact
    { history := h.history
      applied_le := le_rfl
      phase := hphase
      queued := ⟨mid, hlocal, hqueue⟩ }

theorem next_item {fatal : Bool} (hphase : a.phase = .next)
    (hnext : a.next fatal = some a') : a'.Ok lastEmitted := by
  have hok := h.phase
  rw [hphase] at hok
  obtain ⟨happlied, hmarker⟩ := hok
  obtain ⟨mid, hlocal, hqueue⟩ := h.queued
  unfold Applier.next at hnext
  rw [hphase] at hnext
  dsimp only at hnext
  split at hnext
  · -- a snapshot
    rename_i snap snaps hsnaps
    rw [hsnaps] at hlocal
    split at hnext
    · cases hnext
    · cases hnext
      have hpos : position 0 (a.actions ++ [(a.appliedIndex, .snapshot snap)]) = snap.lastIndex :=
        position_concat 0 a.actions _
      exact
        { history := h.history.concat ⟨happlied, hlocal.1, trivial⟩
          applied_le := by
            show a.appliedIndex ≤ position 0 (a.actions ++ [(a.appliedIndex, .snapshot snap)])
            have hahead := hlocal.1
            rw [hpos]
            omega
          phase := ⟨hpos.symm, hpos.symm⟩
          queued := ⟨mid, by
            show Drains (position 0 (a.actions ++ [(a.appliedIndex, .snapshot snap)])) snaps a.entries mid
            rw [hpos]
            exact hlocal.2, hqueue⟩ }
  · cases hnext
  · -- an entry
    rename_i e entries hsnaps hentries
    rw [hsnaps, hentries] at hlocal
    have hreaches : Reaches (position 0 a.actions) (e :: entries) mid := hlocal
    unfold Reaches at hreaches
    split at hnext
    · rename_i hle
      cases hnext
      rw [if_pos (happlied ▸ hle)] at hreaches
      refine { h with phase := ⟨happlied, hmarker⟩, queued := ⟨mid, ?_, hqueue⟩ }
      show Drains _ a.snaps entries mid
      rw [hsnaps]
      exact hreaches
    · rename_i hle
      rw [if_neg (happlied ▸ hle)] at hreaches
      split at hnext
      · cases hnext
        exact { h with phase := fun _ => hmarker }
      · cases hnext
        have hpos : position 0 (a.actions ++ [(a.appliedIndex, .entry e)]) = e.index :=
          position_concat 0 a.actions _
        exact
          { history := h.history.concat ⟨happlied, hreaches.1, trivial⟩
            applied_le := by
              show a.appliedIndex ≤ position 0 (a.actions ++ [(a.appliedIndex, .entry e)])
              rw [hpos]
              omega
            phase := hpos.symm
            queued := ⟨mid, by
              show Drains (position 0 (a.actions ++ [(a.appliedIndex, .entry e)])) a.snaps entries mid
              rw [hpos, hsnaps]
              exact hreaches.2, hqueue⟩ }

theorem next {fatal : Bool} (hnext : a.next fatal = some a') : a'.Ok lastEmitted := by
  have hok := h.phase
  have happlied := h.applied_le
  cases hphase : a.phase with
  | next => exact h.next_item hphase hnext
  | restored snap =>
    rw [hphase] at hok
    unfold Applier.next at hnext
    rw [hphase] at hnext
    cases hnext
    have hsnap : max a.appliedIndex snap.lastIndex = position 0 a.actions := by
      have hindex := hok.1
      omega
    rw [hsnap]
    exact h.catch_up ⟨rfl, hok.2⟩
  | applied e =>
    rw [hphase] at hok
    unfold Applier.next at hnext
    rw [hphase] at hnext
    dsimp only at hnext
    split at hnext
    · cases hnext
      exact { h with phase := fun hc => absurd hc Bool.false_ne_true }
    · cases hnext
      exact { h with phase := ⟨hok, hok⟩ }
  | marked e =>
    rw [hphase] at hok
    unfold Applier.next at hnext
    rw [hphase] at hnext
    cases hnext
    rw [hok.1]
    exact h.catch_up ⟨rfl, hok.2⟩
  | failed recorded =>
    unfold Applier.next at hnext
    rw [hphase] at hnext
    cases hnext

theorem init (hmarker : a.marker = position 0 a.actions) (snap : Snapshot) :
    (a.init snap).Ok snap.lastIndex := by
  unfold Applier.init
  dsimp only
  split
  · rename_i hahead
    have hpos : position 0 (a.actions ++ [(a.marker, .snapshot snap)]) = snap.lastIndex :=
      position_concat 0 a.actions _
    have hmax : max a.marker snap.lastIndex = snap.lastIndex := by omega
    exact
      { history := h.history.concat ⟨hmarker, hmarker ▸ hahead, trivial⟩
        applied_le := by
          show max a.marker snap.lastIndex ≤ position 0 (a.actions ++ [(a.marker, .snapshot snap)])
          omega
        phase := ⟨hmax.trans hpos.symm, hpos.symm⟩
        queued := ⟨_, rfl, by
          show position 0 (a.actions ++ [(a.marker, .snapshot snap)]) =
            max (max a.marker snap.lastIndex) snap.lastIndex
          omega⟩ }
  · rename_i hahead
    have hmax : max a.marker snap.lastIndex = a.marker := by omega
    exact
      { history := h.history
        applied_le := by
          show max a.marker snap.lastIndex ≤ position 0 a.actions
          omega
        phase := ⟨hmax.trans hmarker, hmarker⟩
        queued := ⟨_, rfl, by
          show position 0 a.actions = max (max a.marker snap.lastIndex) snap.lastIndex
          omega⟩ }

end

end Applier.Ok

/-! ## Whole runs. -/

structure Replica.Ok (h : Replica) : Prop where
  settled : Settled h.storage h.raft
  applier : h.applier.Ok h.raft.lastEmitted

namespace Replica.Ok

variable {h h' : Replica}

theorem boot (cfg : Config) : (Replica.boot cfg).Ok where
  settled := Settled.start (d := {}) cfg trivial
  applier :=
    { history := trivial
      applied_le := le_rfl
      phase := ⟨rfl, rfl⟩
      queued := ⟨0, rfl, rfl⟩ }

theorem perform (hok : h.Ok) {op : Op} (horder : (ReplicaEvent.perform op).Orderly h)
    (hstep : h.step (.perform op) = some h') : h'.Ok := by
  have hsound : op.Sound := by
    cases op with
    | step m => exact horder.1
    | tick | propose command | startReadIndex ctx => trivial
  let ahead : Snapshot → Prop :=
    fun snap => max h.applier.appliedIndex h.raft.lastEmitted < snap.lastIndex
  have hallowed : op.Allowed ⟨h.storage, h.raft.lastEmitted, False, ahead⟩ h.raft := by
    cases op with
    | step m => exact horder.2
    | tick | propose command | startReadIndex ctx => trivial
  have hpending := (hok.settled.pending ahead False.elim).perform hsound hallowed False.elim
  have hpushed := hok.applier.push rfl hpending.committed hpending.installs
  cases hstep
  exact
    { settled := hpending.settled
      applier := by
        have hlast := hpending.emitted
        show (h.applier.push (h.raft.perform op).ready).Ok (h.raft.perform op).lastEmitted
        rw [hlast]
        exact hpushed }

theorem maybeSnapshot (hok : h.Ok) {data : Bytes} (hstep : h.step (.maybeSnapshot data) = some h') :
    h'.Ok := by
  unfold Replica.step at hstep
  dsimp only at hstep
  split at hstep
  · split at hstep
    · cases hstep
      exact hok
    · rename_i hcommit
      cases hstep
      have hemitted : (h.raft.compactTo h.applier.appliedIndex data).lastEmitted =
          h.raft.lastEmitted := by
        unfold Core.compactTo
        split <;> rfl
      exact
        { settled := (hok.settled.compactTo (not_lt.mp hcommit) data).1
          applier := hemitted.symm ▸ hok.applier }
  · cases hstep

theorem restart (hok : h.Ok) {cfg : Config} (horder : (ReplicaEvent.restart cfg).Orderly h)
    (hstep : h.step (.restart cfg) = some h') : h'.Ok := by
  have hmarker : h.applier.marker = position 0 h.applier.actions := by
    have hphase := hok.applier.phase
    have hrecorded : h.applier.phase.recorded = true := horder
    cases hcase : h.applier.phase with
    | next | restored snap | marked e => rw [hcase] at hphase; exact hphase.2
    | applied e => rw [hcase] at hrecorded; cases hrecorded
    | failed recorded => rw [hcase] at hphase hrecorded; exact hphase hrecorded
  have hcontiguous : Contiguous h.storage.snap.lastIndex h.storage.entries := by
    rw [hok.settled.storage]
    exact hok.settled.contiguous
  cases hstep
  exact
    { settled := Settled.start cfg hcontiguous
      applier := hok.applier.init hmarker h.storage.snap }

theorem step (hok : h.Ok) {e : ReplicaEvent} (horder : e.Orderly h)
    (hstep : h.step e = some h') : h'.Ok := by
  cases e with
  | perform op => exact hok.perform horder hstep
  | take =>
    obtain ⟨a, ha, heq⟩ := map_eq_some_iff.mp hstep
    cases heq
    exact { hok with applier := hok.applier.take ha }
  | next fatal =>
    obtain ⟨a, ha, heq⟩ := map_eq_some_iff.mp hstep
    cases heq
    exact { hok with applier := hok.applier.next ha }
  | maybeSnapshot data => exact hok.maybeSnapshot hstep
  | restart cfg => exact hok.restart horder hstep

end Replica.Ok

/-- **The apply pipeline is in order and exactly once.**  Every entry is applied when
`applied_index_` is the index before it, every snapshot moves `applied_index_` ahead; no index is
applied twice, and none is skipped that no snapshot covers. -/
theorem applies_in_order {cfg : Config} {es : List ReplicaEvent} {h : Replica}
    (hrun : Machine.run Replica.step (Replica.boot cfg) es = some h)
    (horder : Machine.Along Replica.step (fun h e => e.Orderly h) (Replica.boot cfg) es) :
    InOrder 0 h.applier.actions ∧
      (h.applier.actions.map fun a => a.2.index).Pairwise (· < ·) ∧
      ∀ i, 0 < i → i ≤ position 0 h.applier.actions →
        (∃ a ∈ h.applier.actions, ∃ e, a.2 = .entry e ∧ e.index = i) ∨
          ∃ a ∈ h.applier.actions, ∃ snap, a.2 = .snapshot snap ∧ i ≤ snap.lastIndex := by
  have hok : h.Ok := Machine.run_induction (fun s e s' hs ho hstep => hs.step ho hstep)
    (Replica.Ok.boot cfg) horder hrun
  have hhistory := hok.applier.history
  exact ⟨hhistory, (pairwise_cons.mp hhistory.increasing).2,
    fun i hlo hhi => hhistory.covers hlo hhi⟩

/-! ## A snapshot that goes back. -/

/-- The first leader sends four entries, of which three are committed; the loop applies them. -/
def applyThree : List ReplicaEvent :=
  .perform (.step
    { kind := .appendEntries, from_ := 1, to_ := 2, term := 1, commit := 3,
      entries := [⟨1, 1, []⟩, ⟨1, 2, [7]⟩, ⟨1, 3, [8]⟩, ⟨1, 4, [9]⟩] }) ::
    .take :: List.replicate 9 (.next false)

/-- A message of the second leader. -/
def fromSecond (kind : MsgKind) (prevIndex : Nat) (entries : List LogEntry) (snapIndex snapTerm : Nat) :
    ReplicaEvent :=
  .perform (.step
    { kind := kind, from_ := 3, to_ := 2, term := 2, commit := prevIndex + entries.length,
      prevIndex := prevIndex, prevTerm := 2, entries := entries, snapIndex := snapIndex,
      snapTerm := snapTerm })

/-- A snapshot that is ahead of everything is restored on a restart, and the entry behind it is
applied. -/
def restoreAhead : List ReplicaEvent :=
  applyThree ++
    [fromSecond .installSnapshot 0 [] 6 2, fromSecond .appendEntries 6 [⟨2, 7, [5]⟩] 0 0,
      .restart (eagerConfig 10 2), fromSecond .appendEntries 7 [] 0 0, .take] ++
    List.replicate 3 (.next false)

theorem applies_in_order_restoreAhead : ∃ h,
    Machine.run Replica.step (Replica.boot (eagerConfig 10 2)) restoreAhead = some h ∧
      h.applier.actions.map (fun a => (a.1, a.2.index)) = [(0, 1), (1, 2), (2, 3), (3, 6), (6, 7)] ∧
      InOrder 0 h.applier.actions := by
  have horder : Machine.Along Replica.step (fun h e => e.Orderly h)
      (Replica.boot (eagerConfig 10 2)) restoreAhead := by decide +kernel
  obtain ⟨h, hrun, hactions⟩ : ∃ h,
      Machine.run Replica.step (Replica.boot (eagerConfig 10 2)) restoreAhead = some h ∧
        h.applier.actions.map (fun a => (a.1, a.2.index)) =
          [(0, 1), (1, 2), (2, 3), (3, 6), (6, 7)] := by decide +kernel
  exact ⟨h, hrun, hactions, (applies_in_order hrun horder).1⟩

/-- The replica restarts, and the second leader, whose log begins behind index 2, has another entry
at index 4: the replica's hint sends it back to index 1, and it sends its snapshot. -/
def restoreBack : List ReplicaEvent :=
  applyThree ++
    [.restart (eagerConfig 10 2), fromSecond .appendEntries 4 [] 0 0,
      fromSecond .installSnapshot 0 [] 2 1, .take, .next false]

/-- **A snapshot that goes back**: index 3 is applied, and the state machine is set to index 2. -/
theorem snapshot_moves_back : ∃ h,
    Machine.run Replica.step (Replica.boot (eagerConfig 10 2)) restoreBack = some h ∧
      h.applier.actions.map (fun a => (a.1, a.2.index)) = [(0, 1), (1, 2), (2, 3), (3, 2)] ∧
      h.applier.appliedIndex = 3 ∧ ¬ InOrder 0 h.applier.actions := by
  decide +kernel

end Flotilla.Server
