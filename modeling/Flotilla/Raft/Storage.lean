/-
  Raft.Storage — what `raft/raft_storage.h` keeps for the core.

  `RaftStorage` holds three durable values: the hard state, the snapshot and
  the log entries.  The operations below are those of the source on these
  values; `persist` runs the durable part of a `Ready` in the order snapshot,
  truncate, append, hard state.
-/
import Flotilla.Raft.Core

namespace Flotilla.Raft

/-- `RaftStorage`: `hard_`, `snap_` and `entries_`. -/
structure Storage where
  hard : HardState := {}
  snap : Snapshot := {}
  entries : List LogEntry := []

namespace Storage

def saveHardState (d : Storage) (hs : HardState) : Storage := { d with hard := hs }

def append (d : Storage) (es : List LogEntry) : Storage := { d with entries := d.entries ++ es }

/-- `TruncateFrom`: pop entries from the back while their index is `≥ index`. -/
def truncateFrom (d : Storage) (index : Nat) : Storage :=
  { d with entries := d.entries.rdropWhile (fun e => decide (index ≤ e.index)) }

/-- `SaveSnapshot`: with `dropAll` the whole log goes, else the covered entries. -/
def saveSnapshot (d : Storage) (snap : Snapshot) (dropAll : Bool) : Storage :=
  { d with
    snap := snap
    entries := if dropAll then []
      else d.entries.dropWhile (fun e => decide (e.index ≤ snap.lastIndex)) }

def persist (d : Storage) (ready : Ready) : Storage :=
  let d := match ready.snapshotToApply with
    | some snap => d.saveSnapshot snap true
    | none => d
  let d := if ready.truncateFrom ≠ 0 then d.truncateFrom ready.truncateFrom else d
  let d := d.append ready.entriesToAppend
  if ready.hardStateChanged then d.saveHardState ready.hardState else d

theorem persist_hard (d : Storage) (ready : Ready) :
    (d.persist ready).hard = if ready.hardStateChanged then ready.hardState else d.hard := by
  unfold persist
  dsimp only
  split
  · rfl
  · split <;> split <;> rfl

end Storage

end Flotilla.Raft
