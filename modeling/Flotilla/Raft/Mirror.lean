/-
  Raft.Mirror — the storage of a group is the durable part of its core.

  A host runs operations on the core and drains `ready` into the storage, takes
  snapshots, and may stop and open the files again.
-/
import Flotilla.Lib.Machine
import Flotilla.Raft.Pending

namespace Flotilla.Raft

/-! ## The host of one group. -/

structure Host where
  raft : Core
  storage : Storage := {}
  disk : Disk := {}

inductive HostEvent where
  /-- Operations on the core, then `DrainReady`; the host runs one at a time. -/
  | drain (ops : List Op)
  | maybeSnapshot (applied : Nat) (data : Bytes)
  /-- Stop, and `Init` on the same directory. -/
  | reopen (cfg : Config)

namespace Host

def boot (cfg : Config) : Host := { raft := Core.start cfg {} [] {} }

def step (h : Host) : HostEvent → Option Host
  | .drain ops =>
      let (ready, r) := (ops.foldl Core.perform h.raft).takeReady
      some ⟨r, h.storage.persist ready, (h.storage.persistOps ready).foldl Disk.apply h.disk⟩
  | .maybeSnapshot applied data =>
      if h.raft.commit < applied then some h
      else
        let r := h.raft.compactTo applied data
        some ⟨r, h.storage.saveSnapshot r.base false,
          (h.storage.saveSnapshotOps r.base false).foldl Disk.apply h.disk⟩
  | .reopen cfg => h.disk.load.map fun (d, disk) => ⟨Core.start cfg d.hard d.entries d.snap, d, disk⟩

end Host

/-- `CompactTo` erases entries of the log that are there. -/
def HostEvent.Sound (h : Host) : HostEvent → Prop
  | .drain ops => ∀ op ∈ ops, op.Sound
  | .maybeSnapshot applied _ => applied ≤ h.raft.commit → applied ≤ h.raft.lastIndex
  | .reopen _ => True

def HostEvent.Fits (h : Host) : HostEvent → Prop
  | .drain ops => OpsFit h.raft ops
  | .maybeSnapshot applied data => applied < 2 ^ 64 ∧ data.length < 2 ^ 32
  | .reopen cfg => cfg.id < 2 ^ 32

instance (h : Host) : ∀ e : HostEvent, Decidable (e.Sound h)
  | .drain ops => inferInstanceAs (Decidable (∀ op ∈ ops, op.Sound))
  | .maybeSnapshot _ _ => inferInstanceAs (Decidable (_ → _))
  | .reopen _ => inferInstanceAs (Decidable True)

instance (h : Host) : ∀ e : HostEvent, Decidable (e.Fits h)
  | .drain ops => inferInstanceAs (Decidable (OpsFit h.raft ops))
  | .maybeSnapshot _ _ => inferInstanceAs (Decidable (_ ∧ _))
  | .reopen cfg => inferInstanceAs (Decidable (cfg.id < 2 ^ 32))

/-! ## Whole runs. -/

/-- The storage is the durable part of the core; with `sized`, the files stand for it. -/
structure Mirrored (sized : Prop) (h : Host) : Prop where
  settled : Settled h.storage h.raft
  id : sized → h.raft.config.id < 2 ^ 32
  disk : sized → Stores h.disk h.storage []

namespace Mirrored

variable {sized : Prop} {h h' : Host}

theorem boot {cfg : Config} (hid : sized → cfg.id < 2 ^ 32) : Mirrored sized (Host.boot cfg) where
  settled := Settled.start (d := {}) cfg trivial
  id := hid
  disk := fun _ => stores_empty

theorem fits (hm : Mirrored sized h) (hs : sized) :
    DurableFits h.raft.hard h.raft.base h.raft.log h.raft.config.id := by
  have hstores := hm.disk hs
  rw [hm.settled.storage] at hstores
  exact ⟨hstores.hardFits, hstores.snapFits, hstores.entriesFit, hm.id hs⟩

theorem drain (hm : Mirrored sized h) {ops : List Op} (hsound : ∀ op ∈ ops, op.Sound)
    (hfits : sized → OpsFit h.raft ops) (hstep : h.step (.drain ops) = some h') :
    Mirrored sized h' := by
  have hpending := (hm.settled.pending (fun _ => True) hm.fits).foldl_perform hsound
    (fun _ => trivial) hfits
  cases hstep
  exact
    { settled := hpending.settled
      id := fun hs => (hpending.fits hs).id
      disk := fun hs => (hm.disk hs).persist (hpending.readyFits hs) }

theorem termAt_lt {r : Core} (hfits : DurableFits r.hard r.base r.log r.config.id) (i : Nat) :
    r.termAt i < 2 ^ 64 := by
  unfold Core.termAt
  split
  · exact hfits.base.lastTerm
  · split
    · unfold Core.entryAt
      cases hentry : r.log[i - r.base.lastIndex - 1]? with
      | none => exact Nat.two_pow_pos 64
      | some e => exact (hfits.log e (mem_of_getElem? hentry)).term
    · exact Nat.two_pow_pos 64

theorem maybeSnapshot (hm : Mirrored sized h) {applied : Nat} {data : Bytes}
    (hfits : sized → applied < 2 ^ 64 ∧ data.length < 2 ^ 32)
    (hstep : h.step (.maybeSnapshot applied data) = some h') : Mirrored sized h' := by
  unfold Host.step at hstep
  dsimp only at hstep
  split at hstep
  · cases hstep
    exact hm
  · rename_i hcommit
    cases hstep
    obtain ⟨hsettled, hle⟩ := hm.settled.compactTo (not_lt.mp hcommit) data
    have hconfig : (h.raft.compactTo applied data).config = h.raft.config := by
      unfold Core.compactTo
      split <;> rfl
    have hbaseFits : sized → (h.raft.compactTo applied data).base.Fits := by
      intro hs
      have hdurable := hm.fits hs
      unfold Core.compactTo
      split
      · exact hdurable.base
      · exact ⟨(hfits hs).1, termAt_lt hdurable applied, (hfits hs).2⟩
    have hsnap : h.storage.snap = h.raft.base := by rw [hm.settled.storage]
    exact
      { settled := hsettled
        id := fun hs => hconfig.symm ▸ hm.id hs
        disk := fun hs => (hm.disk hs).saveSnapshot (hbaseFits hs) (hsnap.symm ▸ hle) }

theorem reopen (hm : Mirrored sized h) {cfg : Config} (hid : sized → cfg.id < 2 ^ 32)
    (hstep : h.step (.reopen cfg) = some h') : Mirrored sized h' := by
  obtain ⟨⟨d, disk⟩, hload, heq⟩ := map_eq_some_iff.mp hstep
  cases heq
  exact
    { settled := Settled.start cfg (Disk.load_contiguous hload)
      id := hid
      disk := fun hs => by
        obtain ⟨disk', hload', hstores⟩ := (hm.disk hs).load
        rw [hload] at hload'
        cases hload'
        exact hstores }

theorem step (hm : Mirrored sized h) {e : HostEvent} (hsound : e.Sound h)
    (hfits : sized → e.Fits h) (hstep : h.step e = some h') : Mirrored sized h' := by
  cases e with
  | drain ops => exact hm.drain hsound hfits hstep
  | maybeSnapshot applied data => exact hm.maybeSnapshot hfits hstep
  | reopen cfg => exact hm.reopen hfits hstep

end Mirrored

/-- **Persistence mirrors the core.**  After every host operation the storage holds the hard state,
the base and the log of the core.  If everything fitted its field, `Open` returns them. -/
theorem persistence_mirrors {cfg : Config} {es : List HostEvent} {h : Host}
    (hrun : Machine.run Host.step (Host.boot cfg) es = some h)
    (hsound : Machine.Along Host.step (fun h e => e.Sound h) (Host.boot cfg) es) :
    h.storage = ⟨h.raft.hard, h.raft.base, h.raft.log⟩ ∧
      (cfg.id < 2 ^ 32 → Machine.Along Host.step (fun h e => e.Fits h) (Host.boot cfg) es →
        ∃ disk, h.disk.load = some (⟨h.raft.hard, h.raft.base, h.raft.log⟩, disk)) := by
  constructor
  · have hmirrored : Mirrored False h :=
      Machine.run_induction (fun s e s' hm hs hstep => hm.step hs False.elim hstep)
        (Mirrored.boot False.elim) hsound hrun
    exact hmirrored.settled.storage
  · intro hid hfits
    have hmirrored : Mirrored True h := Machine.run_induction
        (fun s e s' hm hs hstep => hm.step hs.1 (fun _ => hs.2) hstep)
        (Mirrored.boot fun _ => hid) (hsound.and hfits) hrun
    obtain ⟨disk, hload, _⟩ := (hmirrored.disk trivial).load
    rw [hmirrored.settled.storage] at hload
    exact ⟨disk, hload⟩

/-! ## A group with one member. -/

/-- A group of one, whose first tick makes it the leader. -/
def soloConfig : Config := { id := 1, peers := [1], heartbeatInterval := 1, draws := fun _ => 1 }

/-- Two commands in one batch, a snapshot that covers the no-op, and a restart. -/
def writeAndReopen : List HostEvent :=
  [.drain [.tick], .drain [.propose [7], .startReadIndex 5, .propose [8]], .maybeSnapshot 1 [9],
    .reopen soloConfig, .drain [.tick]]

theorem persistence_mirrors_writeAndReopen : ∃ h,
    Machine.run Host.step (Host.boot soloConfig) writeAndReopen = some h ∧
      h.raft.base.lastIndex = 1 ∧ h.raft.log.length = 3 ∧
      ∃ disk, h.disk.load = some (⟨h.raft.hard, h.raft.base, h.raft.log⟩, disk) := by
  have hsound : Machine.Along Host.step (fun h e => e.Sound h) (Host.boot soloConfig)
      writeAndReopen := by decide +kernel
  have hfits : Machine.Along Host.step (fun h e => e.Fits h) (Host.boot soloConfig)
      writeAndReopen := by decide +kernel
  have hany : (Machine.run Host.step (Host.boot soloConfig) writeAndReopen).any (fun h =>
      decide (h.raft.base.lastIndex = 1 ∧ h.raft.log.length = 3)) = true := by decide +kernel
  obtain ⟨h, hrun, hlog⟩ := any_eq_true _ _ |>.mp hany
  have hlog' := of_decide_eq_true hlog
  exact ⟨h, hrun, hlog'.1, hlog'.2, (persistence_mirrors hrun hsound).2 (by decide) hfits⟩

/-- **A group that cannot be opened again**: its state machine takes 2^32 bytes when it is
compacted. -/
theorem snapshot_too_long : ∃ data : Bytes, data.length = 2 ^ 32 ∧ ∃ h,
    Machine.run Host.step (Host.boot soloConfig) [.drain [.tick], .maybeSnapshot 1 data] = some h ∧
      h.raft.base = ⟨1, 1, data⟩ ∧ h.disk.load = none := by
  obtain ⟨data, hdata⟩ : ∃ data : Bytes, data.length = 2 ^ 32 :=
    ⟨List.replicate (2 ^ 32) 0, length_replicate⟩
  have hany : ((Host.boot soloConfig).step (.drain [.tick])).any (fun h =>
      decide (h.raft.commit = 1 ∧ h.raft.base.lastIndex = 0 ∧ h.raft.termAt 1 = 1)) = true := by
    decide +kernel
  obtain ⟨h, htick, hfirst⟩ := any_eq_true _ _ |>.mp hany
  obtain ⟨hcommit, hbase, hterm⟩ := of_decide_eq_true hfirst
  have hcompact : (h.raft.compactTo 1 data).base = ⟨1, 1, data⟩ := by
    unfold Core.compactTo
    rw [if_neg (by omega), hterm]
  have hsnap : h.step (.maybeSnapshot 1 data) = some
      ⟨h.raft.compactTo 1 data, h.storage.saveSnapshot ⟨1, 1, data⟩ false,
        (h.storage.saveSnapshotOps ⟨1, 1, data⟩ false).foldl Disk.apply h.disk⟩ := by
    unfold Host.step
    dsimp only
    rw [if_neg (by omega), hcompact]
  have hrun : Machine.run Host.step (Host.boot soloConfig)
      [.drain [.tick], .maybeSnapshot 1 data] = h.step (.maybeSnapshot 1 data) := by
    unfold Machine.run
    rw [htick, bind_some]
    exact Option.bind_fun_some _
  exact ⟨data, hdata, _, hrun.trans hsnap, hcompact, Disk.load_long rfl (Nat.le_of_eq hdata.symm)⟩

end Flotilla.Raft
