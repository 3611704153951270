/-
  Client.Call — `Client::Call` against one range.

  A call sends its request, and sends it again after a `Timeout` or `NotLeader`
  reply and after a broken connection.  Nothing takes the earlier copy back: a
  server may still execute it, also when the call is long finished.  The range
  itself is perfect here: one log, a `PUT` or `DELETE` takes effect when a copy
  of it is appended, and a `GET` reads what the log leaves.

  `send` and `refused` are `CallOnce` with and without a connection, `serve` is
  `ProposeAndWait`, or `LinearizableReadBarrier` and `db_->Get`; after `lost` the
  loop goes on, after `fail` it does not.  A copy is named by its round.
-/
import Flotilla.Common
import Flotilla.Lib.Interleaving
import Flotilla.Lib.Linearizability
import Flotilla.Lib.Machine

namespace Flotilla.Client

open Flotilla.Interleaving (logOf)
open Flotilla.Linearizability (Object Act)

abbrev Key := Bytes

/-! ## The register. -/

inductive RegisterOp where
  | put (value : Bytes)
  | delete
  | get
  deriving DecidableEq

inductive RegisterRes where
  | ok
  /-- `found` and `value` of a `GET`. -/
  | value (found : Option Bytes)
  deriving DecidableEq

def register : Object (Option Bytes) RegisterOp RegisterRes where
  init := none
  apply := fun value op =>
    match op with
    | .put new => (some new, .ok)
    | .delete => (none, .ok)
    | .get => (value, .value value)

/-! ## Calls. -/

inductive Phase where
  /-- Between two rounds. -/
  | idle
  | waiting (copy : Nat)
  /-- The server has executed the copy that the round waits for. -/
  | answered (copy : Nat) (res : RegisterRes)
  | done (copy : Nat) (res : RegisterRes)
  | failed
  deriving DecidableEq

/-- Inside `CallOnce`. -/
def Phase.inRound : Phase → Bool
  | .waiting _ => true
  | .answered _ _ => true
  | _ => false

/-- The copy and the result that a call has been answered with, if it has. -/
def Phase.answer? : Phase → Option (Nat × RegisterRes)
  | .answered copy res => some (copy, res)
  | .done copy res => some (copy, res)
  | _ => none

structure Call where
  key : Key
  op : RegisterOp
  /-- `addrs_.size()` when the call begins. -/
  addrs : Nat
  attempt : Nat := 0
  /-- Copies that no server has executed yet. -/
  inFlight : List Nat := []
  phase : Phase := .idle

def Call.attempts (c : Call) : Nat := c.addrs * 2 + 4

/-- An entry of the log; the call it is a copy for is not in the command. -/
structure Entry where
  call : Nat
  key : Key
  op : RegisterOp

def valueOf (key : Key) (log : List Entry) : Option Bytes :=
  log.foldl (fun value e => if e.key = key then (register.apply value e.op).1 else value) none

structure Clients where
  calls : List Call := []
  log : List Entry := []
  /-- Invocations and final replies, with the key that they are about. -/
  history : List (Key × Act RegisterOp RegisterRes) := []

inductive ClientEvent where
  | invoke (key : Key) (op : RegisterOp) (addrs : Nat)
  | send (call : Nat)
  | refused (call : Nat)
  | serve (call copy : Nat)
  | lost (call : Nat)
  | reply (call : Nat)
  | fail (call : Nat)

namespace Clients

/-- One round of the loop. -/
def nextRound (c : Call) : Call := { c with attempt := c.attempt + 1 }

/-- What a round that waits for this copy learns. -/
def answer (c : Call) (copy : Nat) (res : RegisterRes) : Phase :=
  if c.phase = .waiting copy then .answered copy res else c.phase

def step (s : Clients) : ClientEvent → Option Clients
  | .invoke key op addrs =>
      some { s with
        calls := s.calls ++ [{ key := key, op := op, addrs := addrs }]
        history := s.history ++ [(key, .invoke s.calls.length op)] }
  | .send i =>
      match s.calls[i]? with
      | some c =>
          if c.phase = .idle ∧ c.attempt < c.attempts then
            some { s with calls := s.calls.set i { nextRound c with
              inFlight := c.attempt :: c.inFlight, phase := .waiting c.attempt } }
          else none
      | none => none
  | .refused i =>
      match s.calls[i]? with
      | some c =>
          if c.phase = .idle ∧ c.attempt < c.attempts then
            some { s with calls := s.calls.set i (nextRound c) }
          else none
      | none => none
  | .serve i copy =>
      match s.calls[i]? with
      | some c =>
          if copy ∈ c.inFlight then
            let res := (register.apply (valueOf c.key s.log) c.op).2
            let log := if c.op = .get then s.log else s.log ++ [⟨i, c.key, c.op⟩]
            some { s with
              log := log
              calls := s.calls.set i { c with
                inFlight := c.inFlight.filter (· ≠ copy)
                phase := answer c copy res } }
          else none
      | none => none
  | .lost i =>
      match s.calls[i]? with
      | some c =>
          if c.phase.inRound then
            some { s with calls := s.calls.set i { c with phase := .idle } }
          else none
      | none => none
  | .reply i =>
      match s.calls[i]? with
      | some c =>
          match c.phase with
          | .answered copy res =>
              some { s with
                calls := s.calls.set i { c with phase := .done copy res }
                history := s.history ++ [(c.key, .reply i res)] }
          | _ => none
      | none => none
  | .fail i =>
      match s.calls[i]? with
      | some c =>
          if c.phase.inRound ∨ c.phase = .idle ∧ c.attempts ≤ c.attempt then
            some { s with calls := s.calls.set i { c with phase := .failed } }
          else none
      | none => none

/-! ## What a step does. -/

/-- A call goes on without an answer: a copy may be sent, none is executed. -/
structure GoesOn (c c' : Call) : Prop where
  key : c'.key = c.key
  op : c'.op = c.op
  attempt : c.attempt ≤ c'.attempt
  inFlight : ∀ a ∈ c'.inFlight, a ∈ c.inFlight ∨ (a = c.attempt ∧ a < c'.attempt)

/-- The steps, without what no property depends on. -/
inductive Moves (s : Clients) : ClientEvent → Clients → Prop
  | invoke (key : Key) (op : RegisterOp) (addrs : Nat) :
      Moves s (.invoke key op addrs)
        { s with
          calls := s.calls ++ [{ key := key, op := op, addrs := addrs }]
          history := s.history ++ [(key, .invoke s.calls.length op)] }
  | turn {e : ClientEvent} {i : Nat} {c c' : Call} (hc : s.calls[i]? = some c) (hgo : GoesOn c c')
      (hopen : ∀ copy res, c.phase ≠ .done copy res) (hanswer : c'.phase.answer? = none) :
      Moves s e { s with calls := s.calls.set i c' }
  | serve {i copy : Nat} {c : Call} (hc : s.calls[i]? = some c) (hcopy : copy ∈ c.inFlight) :
      Moves s (.serve i copy)
        { s with
          log := if c.op = .get then s.log else s.log ++ [⟨i, c.key, c.op⟩]
          calls := s.calls.set i { c with
            inFlight := c.inFlight.filter (· ≠ copy)
            phase := answer c copy (register.apply (valueOf c.key s.log) c.op).2 } }
  | reply {i copy : Nat} {res : RegisterRes} {c : Call} (hc : s.calls[i]? = some c)
      (hphase : c.phase = .answered copy res) :
      Moves s (.reply i)
        { s with
          calls := s.calls.set i { c with phase := .done copy res }
          history := s.history ++ [(c.key, .reply i res)] }

theorem GoesOn.nextRound (c : Call) : GoesOn c (nextRound c) :=
  ⟨rfl, rfl, Nat.le_succ _, fun _ ha => .inl ha⟩

theorem GoesOn.send (c : Call) (phase : Phase) :
    GoesOn c { Clients.nextRound c with inFlight := c.attempt :: c.inFlight, phase := phase } := by
  refine ⟨rfl, rfl, Nat.le_succ _, fun a ha => ?_⟩
  rcases mem_cons.mp ha with rfl | ha
  · exact .inr ⟨rfl, Nat.lt_succ_self _⟩
  · exact .inl ha

theorem GoesOn.phase (c : Call) (phase : Phase) : GoesOn c { c with phase := phase } :=
  ⟨rfl, rfl, le_rfl, fun _ ha => .inl ha⟩

theorem moves_of_step {s s' : Clients} {e : ClientEvent} (h : s.step e = some s') :
    Moves s e s' := by
  unfold Clients.step at h
  cases e <;> dsimp only at h
  case invoke key op addrs =>
    cases h
    exact .invoke key op addrs
  case send i =>
    split at h
    · rename_i c hc
      split at h
      · rename_i hgo
        cases h
        exact .turn hc (.send c _) (by simp [hgo.1]) rfl
      · cases h
    · cases h
  case refused i =>
    split at h
    · rename_i c hc
      split at h
      · rename_i hgo
        cases h
        refine .turn hc (.nextRound c) (by simp [hgo.1]) ?_
        show c.phase.answer? = none
        rw [hgo.1]
        rfl
      · cases h
    · cases h
  case serve i copy =>
    split at h
    · rename_i c hc
      split at h
      · rename_i hcopy
        cases h
        exact .serve hc hcopy
      · cases h
    · cases h
  case lost i =>
    split at h
    · rename_i c hc
      split at h
      · rename_i hround
        cases h
        refine .turn hc (.phase c _) (fun copy res hdone => ?_) rfl
        rw [hdone] at hround
        cases hround
      · cases h
    · cases h
  case reply i =>
    split at h
    · rename_i c hc
      split at h
      · rename_i copy res hphase
        cases h
        exact .reply hc hphase
      · cases h
    · cases h
  case fail i =>
    split at h
    · rename_i c hc
      split at h
      · rename_i hround
        cases h
        refine .turn hc (.phase c _) (fun copy res hdone => ?_) rfl
        simp [hdone, Phase.inRound] at hround
      · cases h
    · cases h

/-- A copy is executed only while no other call has written the key since the first copy of its
own call was. -/
def careful (s : Clients) : ClientEvent → Bool
  | .serve i _ =>
      match s.calls[i]? with
      | some c => (s.log.dropWhile (fun e => e.call != i)).all fun e => e.call = i || e.key != c.key
      | none => true
  | _ => true

end Clients

end Flotilla.Client
