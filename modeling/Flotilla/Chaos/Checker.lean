/-
  Chaos.Checker — `chaos/checker.py`, the linearizability checker.

  A record of the history of one key says when an operation was invoked and, if
  it had a response, when that came.  `check_key` searches for an order of the
  operations with an explicit stack of pairs of a mask of the operations that are
  already placed and the value of the register.  The loops of the source have a
  `fuel` argument here; `none` is an exhausted fuel.
-/
import Mathlib

namespace Flotilla.Chaos

/-! ## Records and operations. -/

inductive Kind where
  | put
  | del
  | get
  deriving DecidableEq

inductive Outcome where
  | ok
  | notfound
  | timeout
  | error
  deriving DecidableEq

/-- A merged record of the history.  A record without an outcome counts as timed out, and
`returned` is read only if there was a response. -/
structure Record (V : Type) where
  id : Nat
  op : Kind
  invoked : ℚ
  returned : ℚ := 0
  outcome : Outcome := .timeout
  value : Option V := none
  result : Option V := none
  deriving DecidableEq

/-- There was a response. -/
def Record.determinate {V : Type} (r : Record V) : Bool :=
  r.outcome == .ok || r.outcome == .notfound

/-- The object `Op`; `INF` is `⊤`. -/
structure Op (V : Type) where
  opId : Nat
  kind : Kind
  value : Option V
  observed : Option V
  inv : ℚ
  ret : WithTop ℚ
  determinate : Bool
  deriving DecidableEq

variable {V : Type}

def Record.toOp (r : Record V) : Op V where
  opId := r.id
  kind := r.op
  value := r.value
  observed := if r.op = .get then r.result else none
  inv := r.invoked
  ret := if r.determinate then (r.returned : WithTop ℚ) else ⊤
  determinate := r.determinate

def observedValues (raw : List (Record V)) : List (Option V) :=
  (raw.filter fun r => r.op = .get ∧ r.determinate).map Record.result

section

variable [DecidableEq V]

/-- The latest end of a read that found nothing. -/
def lastNoneRead (raw : List (Record V)) : ℚ :=
  ((raw.filter fun r => r.op = .get ∧ r.determinate ∧ r.result = none).map
    Record.returned).max?.getD (-1)

/-- The `continue` statements of `build_ops`. -/
def skips (raw : List (Record V)) (r : Record V) : Bool :=
  !r.determinate && match r.op with
    | .get => true
    | .put => !decide (r.value ∈ observedValues raw)
    | .del => decide (lastNoneRead raw < r.invoked)

def buildOps (raw : List (Record V)) : List (Op V) :=
  (raw.filter fun r => !skips raw r).map Record.toOp

end

/-! ## The search. -/

structure CheckResult where
  ok : Bool
  reason : String
  states : Nat
  deriving DecidableEq

/-- The loop for `min_ret`, over the operations from position `i` on. -/
def minRet (done : Nat) : Nat → WithTop ℚ → List (Op V) → WithTop ℚ
  | _, least, [] => least
  | i, least, op :: rest =>
      minRet done (i + 1) (if !done.testBit i ∧ op.ret < least then op.ret else least) rest

section

variable [DecidableEq V]

/-- The second loop of `consume_matching_reads`: the position of an enabled read of `value`. -/
def matchingRead (done : Nat) (value : Option V) (least : WithTop ℚ) : Nat → List (Op V) → Option Nat
  | _, [] => none
  | i, op :: rest =>
      if done.testBit i then matchingRead done value least (i + 1) rest
      else if least < op.inv then none
      else if op.kind = .get ∧ op.observed = value then some i
      else matchingRead done value least (i + 1) rest

def consumeMatchingReads (ops : List (Op V)) (value : Option V) : Nat → Nat → Option Nat
  | 0, _ => none
  | fuel + 1, done =>
      match matchingRead done value (minRet done 0 ⊤ ops) 0 ops with
      | none => some done
      | some i => consumeMatchingReads ops value fuel (done ||| 1 <<< i)

omit [DecidableEq V] in
/-- What a write leaves in the register. -/
def Op.effect (op : Op V) : Option V := if op.kind = .put then op.value else none

/-- The loop that pushes what may come next; `branched` is `branched_indet_del`. -/
def branch (done : Nat) (value : Option V) (least : WithTop ℚ) :
    Nat → Bool → List (Op V) → List (Nat × Option V) → List (Nat × Option V)
  | _, _, [], stack => stack
  | i, branched, op :: rest, stack =>
      if done.testBit i then branch done value least (i + 1) branched rest stack
      else if least < op.inv then stack
      else if op.kind = .get then branch done value least (i + 1) branched rest stack
      else if op.kind = .del ∧ !op.determinate ∧ branched then
        branch done value least (i + 1) branched rest stack
      else
        let branched := branched || (op.kind = .del && !op.determinate)
        let newDone := done ||| 1 <<< i
        let stack := (newDone, op.effect) :: stack
        -- an operation without a response may never have taken effect
        let stack := if op.determinate then stack else (newDone, value) :: stack
        branch done value least (i + 1) branched rest stack

def search (ops : List (Op V)) (maxStates : Nat) :
    Nat → List (Nat × Option V) → List (Nat × Option V) → Nat → Option CheckResult
  | 0, _, _, _ => none
  | _ + 1, [], _, states => some ⟨false, "no valid linearization", states⟩
  | fuel + 1, (done, value) :: stack, visited, states =>
      match consumeMatchingReads ops value (ops.length + 1) done with
      | none => none
      | some done =>
          if done = (1 <<< ops.length) - 1 then some ⟨true, "linearizable", states⟩
          else if (done, value) ∈ visited then search ops maxStates fuel stack visited states
          else if maxStates < states + 1 then
            some ⟨false, "state limit exceeded (undecided)", states + 1⟩
          else
            search ops maxStates fuel
              (branch done value (minRet done 0 ⊤ ops) 0 false ops stack)
              ((done, value) :: visited) (states + 1)

def checkKey (fuel : Nat) (raw : List (Record V)) (initial : Option V) (maxStates : Nat) :
    Option CheckResult :=
  let ops := buildOps raw
  if ops.isEmpty then some ⟨true, "empty", 0⟩
  else search (ops.insertionSort fun a b => a.inv ≤ b.inv) maxStates fuel [(0, initial)] [] 0

end

end Flotilla.Chaos
