/-
  Txn.Protocol — coordinators, readers and lock resolution.

  `client/txn_client.cc` (`Begin`, `Commit`, `ResolveLock`) and the `TXN_*`
  cases of `ShardedNode::Handle`, as processes that exchange requests and
  replies.  A process runs from one `Call` to the next.

  The environment decides everything else.  A request, once sent, may be served
  any number of times and at any later time; a served command is applied
  atomically and in one order for every key; its reply may be taken by the
  caller or lost, and a call may fail at any time whether or not its request was
  or will be served.  Timestamps are drawn from one counter.  A server reads its
  own replica, which may lag: a read sees any state since the last point that
  the server has waited for.
-/
import Flotilla.Txn.Records
import Flotilla.Lib.Machine

namespace Flotilla.Txn

/-! ## Requests and replies. -/

inductive Request where
  | txnTs
  /-- `TXN_PREWRITE`, `TXN_COMMIT`, `TXN_ROLLBACK`. -/
  | command (cmd : Command)
  | txnResolve (key : Key) (ts : Nat)

structure Response where
  status : Status := {}
  ts : Nat := 0
  lockTs : Nat := 0
  lockPrimary : Key := []
  lockKey : Key := []

/-- A request on its way: the process that sent it, and the clock at that time. -/
structure Call where
  proc : Nat
  req : Request
  clock : Nat

/-- The answer to call number `call`; `time` commands had been applied by then. -/
structure Reply where
  call : Nat
  resp : Response
  time : Nat

/-! ## `ResolveLock`. -/

/-- `lock_ts`, `lock_primary` and `lock_key` of a conflict. -/
structure BlockingLock where
  ts : Nat
  primary : Key
  key : Key

namespace BlockingLock

def resolve (lock : BlockingLock) : Request := .txnResolve lock.primary lock.ts

/-- Roll the blocked key forward or back to match the primary's fate. -/
def fix (lock : BlockingLock) (outcome : Response) : Request :=
  .command (if outcome.ts ≠ 0 then .commit lock.key lock.ts outcome.ts
    else .rollback lock.key lock.ts)

end BlockingLock

/-! ## `Commit`. -/

structure Mutation where
  op : WriteOp
  value : Bytes

/-- `mutations_`: a `std::map`, in key order. -/
structure Mutations where
  list : List (Key × Mutation)
  sorted : list.Pairwise (fun a b => a.1 < b.1)

/-- Which call of `Begin` or `Commit` is outstanding. -/
inductive Phase where
  | beginning
  | prewriting (todo : List (Key × Mutation)) (attempt : Nat)
  | resolving (todo : List (Key × Mutation)) (attempt : Nat) (lock : BlockingLock)
  | fixing (todo : List (Key × Mutation)) (attempt : Nat) (lock : BlockingLock)
  | allocating
  | committing
  | finishing (todo : List Key)
  | aborting (todo : List Key)
  | done

structure Txn where
  mutations : Mutations
  wall : Nat
  startTs : Nat := 0
  prewritten : List Key := []
  /-- `commit_ts`: 0 until it is drawn. -/
  commitTs : Nat := 0
  phase : Phase := .beginning
  /-- The outstanding call. -/
  call : Nat

namespace Txn

/-- `mutations_.begin()->first`. -/
def primary (t : Txn) : Key :=
  match t.mutations.list with
  | [] => []
  | m :: _ => m.1

/-- What a process does next: its new state, and the request it sends. -/
abbrev Next := Txn × Option Request

/-- The loop of `abort_all`, from the keys that are left. -/
def rollbackNext (t : Txn) : List Key → Next
  | [] => ({ t with phase := .done }, none)
  | key :: todo => ({ t with phase := .aborting todo }, some (.command (.rollback key t.startTs)))

def abortAll (t : Txn) : Next := t.rollbackNext t.prewritten

def prewrite (t : Txn) (todo : List (Key × Mutation)) (attempt : Nat) : Next :=
  match todo with
  | [] => ({ t with phase := .allocating }, some .txnTs)
  | m :: _ => ({ t with phase := .prewriting todo attempt },
      some (.command (.prewrite m.1 m.2.value m.2.op t.startTs t.primary t.wall)))

/-- The end of a prewrite attempt that was blocked. -/
def retry (t : Txn) (todo : List (Key × Mutation)) (attempt : Nat) : Next :=
  if attempt + 1 < 10 then t.prewrite todo (attempt + 1) else t.abortAll

/-- The loop over the secondaries, from the keys that are left. -/
def commitNext (t : Txn) : List Key → Next
  | [] => ({ t with phase := .done }, none)
  | key :: todo =>
      ({ t with phase := .finishing todo }, some (.command (.commit key t.startTs t.commitTs)))

def secondaries (t : Txn) : List Key :=
  (t.mutations.list.map Prod.fst).filter (fun key => key ≠ t.primary)

/-- `Begin` and `Commit` after the outstanding call: `none` if it failed. -/
def advance (t : Txn) (result : Option Response) : Next :=
  match t.phase with
  | .beginning =>
      match result with
      | some resp =>
          if resp.status.isOk then
            let t := { t with startTs := resp.ts }
            -- `Commit` of an empty transaction sends nothing
            if t.mutations.list.isEmpty then ({ t with phase := .done }, none)
            else t.prewrite t.mutations.list 0
          else ({ t with phase := .done }, none)
      | none => ({ t with phase := .done }, none)
  | .prewriting todo attempt =>
      match result with
      | none => t.abortAll
      | some resp =>
          if resp.status.isConflict ∧ resp.lockTs ≠ 0 then
            let lock : BlockingLock := ⟨resp.lockTs, resp.lockPrimary, resp.lockKey⟩
            if resp.lockPrimary.isEmpty then t.retry todo attempt
            else ({ t with phase := .resolving todo attempt lock }, some lock.resolve)
          else if ¬ resp.status.isOk then t.abortAll
          else
            match todo with
            | [] => (t, none)
            | m :: rest => { t with prewritten := t.prewritten ++ [m.1] }.prewrite rest 0
  | .resolving todo attempt lock =>
      match result with
      | none => t.abortAll
      | some outcome =>
          if outcome.status.isOk then
            ({ t with phase := .fixing todo attempt lock }, some (lock.fix outcome))
          else if outcome.status.isConflict then t.retry todo attempt
          else t.abortAll
  | .fixing todo attempt _ =>
      match result with
      | none => t.abortAll
      | some fixed =>
          if fixed.status.isOk ∨ fixed.status.isConflict then t.retry todo attempt
          else t.abortAll
  | .allocating =>
      match result with
      | some resp =>
          if resp.status.isOk then
            let t := { t with commitTs := resp.ts }
            -- the commit point: the primary key
            ({ t with phase := .committing },
              some (.command (.commit t.primary t.startTs t.commitTs)))
          else t.abortAll
      | none => t.abortAll
  | .committing =>
      match result with
      | some resp => if resp.status.isOk then t.commitNext t.secondaries else t.abortAll
      | none => t.abortAll
  | .finishing todo => t.commitNext todo
  | .aborting todo => t.rollbackNext todo
  | .done => (t, none)

end Txn

/-! ## Readers. -/

inductive ReaderPhase where
  | resolving
  | fixing
  | done

/-- A read that met a lock and resolves it. -/
structure Reader where
  lock : BlockingLock
  phase : ReaderPhase := .resolving
  call : Nat

def Reader.advance (r : Reader) (result : Option Response) : Reader × Option Request :=
  match r.phase, result with
  | .resolving, some outcome =>
      if outcome.status.isOk then ({ r with phase := .fixing }, some (r.lock.fix outcome))
      else ({ r with phase := .done }, none)
  | _, _ => ({ r with phase := .done }, none)

/-! ## `TXN_RESOLVE` on the server. -/

inductive HandlerPhase where
  /-- `GetLock` on the primary. -/
  | lookup
  /-- The rollback of an expired lock is proposed. -/
  | expiring
  /-- `FindTxnOutcome` on the primary. -/
  | deciding
  /-- Neither committed nor marked: the poisoning rollback is proposed. -/
  | poisoning
  /-- `FindTxnOutcome` again, after the poisoning met a commit. -/
  | rereading
  | done
  deriving DecidableEq

structure Handler where
  /-- The call it answers. -/
  client : Nat
  key : Key
  ts : Nat
  /-- The replica has applied at least this much. -/
  since : Nat
  phase : HandlerPhase := .lookup
  /-- The outstanding proposal. -/
  call : Nat := 0

/-- What the environment lets a process see. -/
inductive Choice where
  | fail
  /-- Take reply number `reply`; a lock attached to it is read at `view`. -/
  | reply (reply view : Nat)
  /-- Read the replica at `view`; the clock says whether a lock is alive. -/
  | look (view : Nat) (alive : Bool)

/-- The new state, the command it proposes, the answer it gives. -/
structure HandlerNext where
  handler : Handler
  req : Option Request := none
  resp : Option Response := none

/-- The handler, which waits for the command it proposes, if any. -/
def HandlerNext.waiting (next : HandlerNext) (call : Nat) : Handler :=
  match next.req with
  | some _ => { next.handler with call := call }
  | none => next.handler

namespace Handler

def rollback (h : Handler) : Request := .command (.rollback h.key h.ts)

/-- The handler after its proposal: `none` if it failed. -/
def proposed (h : Handler) (result : Option Reply) : HandlerNext :=
  match h.phase, result with
  | .expiring, some reply =>
      if reply.resp.status.isOk ∨ reply.resp.status.isConflict then
        ⟨{ h with phase := .deciding, since := reply.time }, none, none⟩
      else ⟨{ h with phase := .done }, none, some { status := reply.resp.status }⟩
  | .poisoning, some reply =>
      if reply.resp.status.isConflict then
        ⟨{ h with phase := .rereading, since := reply.time }, none, none⟩
      else if reply.resp.status.isOk then ⟨{ h with phase := .done }, none, some {}⟩
      else ⟨{ h with phase := .done }, none, some { status := reply.resp.status }⟩
  | _, _ => ⟨{ h with phase := .done }, none, none⟩

/-- The handler after reading the replica state `db`. -/
def looked (h : Handler) (db : Store) (alive : Bool) : HandlerNext :=
  match h.phase with
  | .lookup =>
      match (db.lock h.key).filter (fun lock => lock.startTs = h.ts) with
      | some _ =>
          if alive then
            ⟨{ h with phase := .done }, none,
              some { status := ⟨.conflict, text "transaction still alive"⟩ }⟩
          else ⟨{ h with phase := .expiring }, some h.rollback, none⟩
      | none => ⟨{ h with phase := .deciding }, none, none⟩
  | .deciding =>
      let outcome := findTxnOutcome h.ts (db.writes h.key)
      if outcome.1 = 0 ∧ outcome.2 = false then
        ⟨{ h with phase := .poisoning }, some h.rollback, none⟩
      else ⟨{ h with phase := .done }, none, some { ts := outcome.1 }⟩
  | .rereading =>
      ⟨{ h with phase := .done }, none,
        some { ts := (findTxnOutcome h.ts (db.writes h.key)).1 }⟩
  | _ => ⟨{ h with phase := .done }, none, none⟩

end Handler

/-! ## The system. -/

inductive Proc where
  | txn (t : Txn)
  | reader (r : Reader)
  | handler (h : Handler)

structure Sys where
  /-- Timestamps up to here have been drawn. -/
  clock : Nat := 0
  /-- The applied commands. -/
  log : List Command := []
  sent : List Call := []
  replies : List Reply := []
  procs : List Proc := []

inductive Event where
  | begin (mutations : Mutations) (wall : Nat)
  /-- A read of `key` that meets the lock it finds at `view`. -/
  | read (key : Key) (view : Nat)
  | serve (call : Nat)
  | step (proc : Nat) (choice : Choice)

namespace Sys

/-- The records after the first `n` commands. -/
def dbAt (s : Sys) (n : Nat) : Store := (s.log.take n).foldl Store.exec {}

def db (s : Sys) : Store := s.log.foldl Store.exec {}

/-- Process `n` goes on as `p`, which waits for the request it sends, if any. -/
def install (s : Sys) (n : Nat) (p : Nat → Proc) (req : Option Request) : Sys :=
  { s with
    procs := s.procs.set n (p s.sent.length)
    sent := s.sent ++ (req.map fun req => Call.mk n req s.clock).toList }

/-- A new process `p`, which waits for the request it sends. -/
def spawn (s : Sys) (p : Nat → Proc) (req : Request) : Sys :=
  { s with
    procs := s.procs ++ [p s.sent.length]
    sent := s.sent ++ [⟨s.procs.length, req, s.clock⟩] }

/-- The reply, with the lock that the leader of a blocked prewrite attaches to it. -/
def respond (s : Sys) (reply : Reply) (view : Nat) : Response :=
  match (s.sent[reply.call]?).map Call.req with
  | some (.command (.prewrite key _ _ _ _ _)) =>
      if reply.resp.status.isConflict then
        match (s.dbAt view).lock key with
        | some lock =>
            { reply.resp with
              lockTs := lock.startTs, lockPrimary := lock.primary, lockKey := key }
        | none => reply.resp
      else reply.resp
  | _ => reply.resp

/-- What the caller of `call` gets: outer `none` if the choice is not open to it. -/
def result (s : Sys) (call : Nat) : Choice → Option (Option Reply)
  | .fail => some none
  | .reply j view =>
      match s.replies[j]? with
      | some reply =>
          if reply.call = call ∧ reply.time ≤ view ∧ view ≤ s.log.length then
            some (some { reply with resp := s.respond reply view })
          else none
      | none => none
  | .look _ _ => none

/-- A command is applied and answered. -/
def serveCommand (s : Sys) (call : Nat) (cmd : Command) : Sys :=
  { s with
    log := s.log ++ [cmd]
    replies := s.replies ++ [⟨call, { status := (cmd.apply s.db).1 }, s.log.length + 1⟩] }

def serve (s : Sys) (call : Nat) : Request → Sys
  | .txnTs =>
      { s with
        clock := s.clock + 1
        replies := s.replies ++ [⟨call, { ts := s.clock + 1 }, s.log.length⟩] }
  | .command cmd => s.serveCommand call cmd
  | .txnResolve key ts =>
      -- after `LinearizableReadBarrier`
      { s with procs := s.procs ++
          [.handler { client := call, key := key, ts := ts, since := s.log.length }] }

/-- Handler `n` goes on. -/
def installHandler (s : Sys) (n : Nat) (next : HandlerNext) : Sys :=
  let s := s.install n (fun call => .handler (next.waiting call)) next.req
  match next.resp with
  | some resp => { s with
      replies := s.replies ++ [⟨next.handler.client, resp, s.log.length⟩] }
  | none => s

def stepProc (s : Sys) (n : Nat) (choice : Choice) : Proc → Option Sys
  | .txn t =>
      match t.phase with
      | .done => none
      | _ =>
          (s.result t.call choice).map fun reply =>
            let next := t.advance (reply.map Reply.resp)
            s.install n (fun call => .txn { next.1 with call := call }) next.2
  | .reader r =>
      match r.phase with
      | .done => none
      | _ =>
          (s.result r.call choice).map fun reply =>
            let next := r.advance (reply.map Reply.resp)
            s.install n (fun call => .reader { next.1 with call := call }) next.2
  | .handler h =>
      match choice with
      | .look view alive =>
          if h.phase ∈ [.lookup, .deciding, .rereading] ∧ h.since ≤ view ∧ view ≤ s.log.length
          then some (s.installHandler n (h.looked (s.dbAt view) alive)) else none
      | _ =>
          if h.phase ∈ [.expiring, .poisoning] then
            (s.result h.call choice).map fun reply => s.installHandler n (h.proposed reply)
          else none

def step (s : Sys) : Event → Option Sys
  | .begin mutations wall =>
      some (s.spawn (fun call => .txn { mutations := mutations, wall := wall, call := call }) .txnTs)
  | .read key view =>
      if view ≤ s.log.length then
        match (s.dbAt view).lock key with
        | some lock =>
            let blocking : BlockingLock := ⟨lock.startTs, lock.primary, key⟩
            if lock.startTs = 0 ∨ lock.primary.isEmpty then none
            else some (s.spawn (fun call => .reader { lock := blocking, call := call })
              blocking.resolve)
        | none => none
      else none
  | .serve i => (s.sent[i]?).map fun call => s.serve i call.req
  | .step n choice => (s.procs[n]?).bind (s.stepProc n choice)

end Sys

end Flotilla.Txn
