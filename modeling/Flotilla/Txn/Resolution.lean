/-
  Txn.Resolution — every resolution of a lock gives the same verdict.

  Any number of `TXN_RESOLVE` handlers run on any keys while commands of any
  kind are applied: those of coordinators and resolvers, late ones and repeated
  ones.  A handler reads its replica without stopping the apply loop, so a read
  may fall between two database writes of one command (`readAt`).

  The verdict is final because it rests on a record.  `VerdictOk` says which one;
  records last, and a transaction has one on a key.
-/
import Flotilla.Txn.RecordSafety
import Flotilla.Txn.Steps

namespace Flotilla.Txn

/-! ## Reads between the writes of a command. -/

theorem writes_of_cut (db : Store) (cmd : Command) (cut : Nat) (key : Key) :
    (db.execUpTo cmd cut).writes key = db.writes key ∨
      (db.execUpTo cmd cut).writes key = (db.exec cmd).writes key := by
  unfold Store.execUpTo Store.exec
  cases cmd with
  | prewrite k value op startTs primary wallMs =>
    left
    simp only [Command.apply, Store.applyPrewrite]
    split
    · simp
    · split
      · simp
      · split
        · split <;> simp
        · cases op <;> rcases cut with _ | _ | cut <;> simp [Store.apply]
  | commit k startTs commitTs =>
    simp only [Command.apply, Store.applyCommit]
    split
    · split
      · simp
      · split <;> simp
    · rcases cut with _ | _ | cut <;> simp [Store.apply]
  | rollback k startTs =>
    simp only [Command.apply, Store.applyRollback]
    split
    · simp
    · split
      · split <;> rcases cut with _ | _ | _ | cut <;> simp [Store.apply]
      · split <;> rcases cut with _ | cut <;> simp [Store.apply]

/-! ## The handlers. -/

/-- An answer to `TXN_RESOLVE(key, ts)`. -/
structure Answer where
  key : Key
  ts : Nat
  resp : Response

structure Resolving where
  /-- The applied commands. -/
  log : List Command := []
  handlers : List Handler := []
  /-- What the handlers have proposed. -/
  calls : List Request := []
  replies : List Reply := []
  answers : List Answer := []

inductive ResolveEvent where
  /-- A command of a coordinator or of another resolver is applied. -/
  | apply (cmd : Command)
  /-- `TXN_RESOLVE` arrives and passes its read barrier. -/
  | request (key : Key) (ts : Nat)
  /-- Proposal `call` is applied; nothing keeps it from being applied again. -/
  | serve (call : Nat)
  /-- Handler `n` reads after `view` commands and `cut` writes of the next one; the clock
  says whether a lock is alive. -/
  | look (n view cut : Nat) (alive : Bool)
  /-- Handler `n` takes reply `reply` to its proposal. -/
  | resume (n reply : Nat)
  /-- The proposal of handler `n` fails, applied or not. -/
  | fail (n : Nat)

def ResolveEvent.commands : ResolveEvent → List Command
  | .apply cmd => [cmd]
  | .request key ts => [.rollback key ts]
  | _ => []

namespace Resolving

def db (s : Resolving) : Store := Store.after s.log

def dbAt (s : Resolving) (view : Nat) : Store := Store.after (s.log.take view)

/-- What a replica shows in the middle of command number `view`. -/
def readAt (s : Resolving) (view cut : Nat) : Store :=
  match s.log[view]? with
  | some cmd => (s.dbAt view).execUpTo cmd cut
  | none => s.dbAt view

/-- Handler `n` goes on. -/
def install (s : Resolving) (n : Nat) (next : HandlerNext) : Resolving :=
  { s with
    handlers := s.handlers.set n (next.waiting s.calls.length)
    calls := s.calls ++ next.req.toList
    answers := s.answers ++
      (next.resp.map fun resp => Answer.mk next.handler.key next.handler.ts resp).toList }

def step (s : Resolving) : ResolveEvent → Option Resolving
  | .apply cmd => some { s with log := s.log ++ [cmd] }
  | .request key ts =>
      some { s with handlers := s.handlers ++
        [{ client := s.handlers.length, key := key, ts := ts, since := s.log.length }] }
  | .serve call =>
      match s.calls[call]? with
      | some (.command cmd) =>
          some { s with
            log := s.log ++ [cmd]
            replies := s.replies ++
              [⟨call, { status := (cmd.apply s.db).1 }, s.log.length + 1⟩] }
      | _ => none
  | .look n view cut alive =>
      (s.handlers[n]?).bind fun h =>
        if h.phase ∈ [.lookup, .deciding, .rereading] ∧ h.since ≤ view ∧ view ≤ s.log.length then
          some (s.install n (h.looked (s.readAt view cut) alive))
        else none
  | .resume n reply =>
      (s.handlers[n]?).bind fun h =>
        (s.replies[reply]?).bind fun r =>
          if h.phase ∈ [.expiring, .poisoning] ∧ r.call = h.call then
            some (s.install n (h.proposed (some r)))
          else none
  | .fail n =>
      (s.handlers[n]?).bind fun h =>
        if h.phase ∈ [.expiring, .poisoning] then some (s.install n (h.proposed none)) else none

/-! ## The invariant. -/

structure HandlerOk (σ : Schedule) (s : Resolving) (h : Handler) : Prop where
  start : σ.Start h.ts
  since : h.since ≤ s.log.length
  proposed : h.phase = .expiring ∨ h.phase = .poisoning → s.calls[h.call]? = some h.rollback
  met : h.phase = .rereading → (s.dbAt h.since).Committed h.key h.ts

/-- What the reply to a proposal says. -/
structure ReplyOk (s : Resolving) (r : Reply) : Prop where
  time : r.time ≤ s.log.length
  means : ∃ key ts, s.calls[r.call]? = some (.command (.rollback key ts)) ∧
    (r.resp.status.isOk = true → s.db.RolledBack key ts) ∧
    (r.resp.status.isConflict = true → (s.dbAt r.time).Committed key ts)

structure Ok (σ : Schedule) (s : Resolving) : Prop where
  log : ∀ cmd ∈ s.log, cmd.Scheduled σ
  calls : ∀ req ∈ s.calls, ∃ key ts, req = .command (.rollback key ts) ∧ σ.Start ts
  handlers : ∀ h ∈ s.handlers, HandlerOk σ s h
  replies : ∀ r ∈ s.replies, ReplyOk s r
  answers : ∀ a ∈ s.answers, VerdictOk s.db a.key a.ts a.resp

section

variable {σ : Schedule} {s s' : Resolving}

theorem Ok.storeOk (hσ : σ.Owned) (h : Ok σ s) (view : Nat) : StoreOk σ (s.dbAt view) :=
  (foldl_exec_ok hσ (.empty σ) (fun cmd hc => h.log cmd (mem_of_mem_take hc))).1

theorem dbAt_length (s : Resolving) : s.dbAt s.log.length = s.db := by
  unfold dbAt db
  rw [take_length]

variable {key : Key} {w : Nat × WriteRecord} {d : Handler}

theorem readAt_writes (s : Resolving) (view cut : Nat) (key : Key) :
    ∃ v, view ≤ v ∧ (s.readAt view cut).writes key = (s.dbAt v).writes key := by
  unfold readAt
  cases hcmd : s.log[view]? with
  | none => exact ⟨view, le_rfl, rfl⟩
  | some cmd =>
    rcases writes_of_cut (s.dbAt view) cmd cut key with heq | heq
    · exact ⟨view, le_rfl, heq⟩
    · refine ⟨view + 1, Nat.le_succ _, ?_⟩
      have hnext : s.dbAt (view + 1) = (s.dbAt view).exec cmd := by
        unfold dbAt
        rw [take_add_one, hcmd, Store.after_append]
        rfl
      rw [heq, hnext]

/-! ## Steps. -/

/-- What a step leaves of the past. -/
structure Grows (s s' : Resolving) : Prop where
  log : s.log <+: s'.log
  calls : s.calls <+: s'.calls

theorem Grows.past (hg : Grows s s') {v : Nat} (hv : v ≤ s.log.length) : s'.dbAt v = s.dbAt v := by
  obtain ⟨post, hpost⟩ := hg.log
  unfold dbAt
  rw [← hpost, take_append_of_le_length hv]

theorem Grows.mem (hσ : σ.Owned) (hg : Grows s s') (hlog : ∀ cmd ∈ s'.log, cmd.Scheduled σ)
    (hw : w ∈ s.db.writes key) : w ∈ s'.db.writes key :=
  mem_writes_after hσ hg.log hlog hw

theorem Grows.verdictOk (hσ : σ.Owned) (hg : Grows s s') (hlog : ∀ cmd ∈ s'.log, cmd.Scheduled σ)
    {ts : Nat} {resp : Response} (h : VerdictOk s.db key ts resp) :
    VerdictOk s'.db key ts resp := by
  intro hok
  obtain ⟨hc, hr⟩ := h hok
  constructor
  · intro hne
    obtain ⟨w, hw, hrest⟩ := hc hne
    exact ⟨w, hg.mem hσ hlog hw, hrest⟩
  · intro hz
    obtain ⟨w, hw, hrest⟩ := hr hz
    exact ⟨w, hg.mem hσ hlog hw, hrest⟩

theorem Grows.handlerOk (hg : Grows s s') {h : Handler} (hh : HandlerOk σ s h) :
    HandlerOk σ s' h := by
  refine ⟨hh.start, hh.since.trans hg.log.length_le, fun hp => ?_, fun hp => ?_⟩
  · exact getElem?_of_isPrefix hg.calls (hh.proposed hp)
  · rw [hg.past hh.since]
    exact hh.met hp

theorem Grows.replyOk (hσ : σ.Owned) (hg : Grows s s') (hlog : ∀ cmd ∈ s'.log, cmd.Scheduled σ)
    {r : Reply} (hr : ReplyOk s r) : ReplyOk s' r := by
  obtain ⟨key, ts, hcall, hok, hconflict⟩ := hr.means
  refine ⟨hr.time.trans hg.log.length_le, key, ts, getElem?_of_isPrefix hg.calls hcall,
    fun h => ?_, fun h => ?_⟩
  · obtain ⟨w, hw, hrest⟩ := hok h
    exact ⟨w, hg.mem hσ hlog hw, hrest⟩
  · rw [hg.past hr.time]
    exact hconflict h

theorem Ok.extend (hσ : σ.Owned) (h : Ok σ s) (hg : Grows s s')
    (hlog : ∀ cmd ∈ s'.log, cmd.Scheduled σ)
    (hcalls : ∀ req ∈ s'.calls, req ∈ s.calls ∨
      ∃ key ts, req = .command (.rollback key ts) ∧ σ.Start ts)
    (hhandlers : ∀ d ∈ s'.handlers, d ∈ s.handlers ∨ HandlerOk σ s' d)
    (hreplies : ∀ r ∈ s'.replies, r ∈ s.replies ∨ ReplyOk s' r)
    (hanswers : ∀ a ∈ s'.answers, a ∈ s.answers ∨ VerdictOk s'.db a.key a.ts a.resp) :
    Ok σ s' where
  log := hlog
  calls := fun req hreq => (hcalls req hreq).elim (h.calls req) id
  handlers := fun d hd => (hhandlers d hd).elim (fun hd => hg.handlerOk (h.handlers d hd)) id
  replies := fun r hr => (hreplies r hr).elim (fun hr => hg.replyOk hσ hlog (h.replies r hr)) id
  answers := fun a ha => (hanswers a ha).elim (fun ha => hg.verdictOk hσ hlog (h.answers a ha)) id

theorem Ok.looked (hσ : σ.Owned) (h : Ok σ s) (hd : HandlerOk σ s d) {view : Nat} (cut : Nat)
    (alive : Bool) (hsince : d.since ≤ view) :
    d.Move s.log (d.looked (s.readAt view cut) alive) := by
  obtain ⟨v, hv, hwrites⟩ := s.readAt_writes view cut d.key
  exact .looked alive hσ h.log hd.since hd.met (hsince.trans hv) hwrites

theorem HandlerOk.proposed_move (hd : HandlerOk σ s d) {reply : Option Reply}
    (hphase : d.phase = .expiring ∨ d.phase = .poisoning)
    (hreply : ∀ r, reply = some r → ReplyOk s r ∧ r.call = d.call) :
    d.Move s.log (d.proposed reply) := by
  refine .proposed hd.since (fun r hr => ?_)
  obtain ⟨hok, heq⟩ := hreply r hr
  obtain ⟨key, ts, hcall, hrest⟩ := hok.means
  rw [heq, hd.proposed hphase] at hcall
  cases hcall
  exact ⟨hok.time, hrest⟩

theorem Ok.install (hσ : σ.Owned) (h : Ok σ s) {n : Nat} (hn : s.handlers[n]? = some d)
    {next : HandlerNext} (hmove : d.Move s.log next) :
    Ok σ (s.install n next) := by
  have hd := h.handlers d (mem_of_getElem? hn)
  have hg : Grows s (s.install n next) := ⟨prefix_refl _, prefix_append _ _⟩
  refine h.extend hσ hg h.log (fun req hreq => ?_) (fun d' hd' => ?_) (fun r hr => .inl hr)
    (fun a ha => ?_)
  · rcases mem_append.mp hreq with hreq | hreq
    · exact .inl hreq
    · right
      rcases hmove.req with heq | ⟨heq, _⟩
      · rw [heq] at hreq
        exact ⟨d.key, d.ts, mem_singleton.mp hreq, hd.start⟩
      · rw [heq] at hreq
        cases hreq
  · rcases List.mem_or_eq_of_mem_set hd' with hd' | rfl
    · exact .inl hd'
    · right
      obtain ⟨_, hkey, hts, hsince, hphase⟩ := hmove.waiting s.calls.length
      refine ⟨by rw [hts]; exact hd.start, by rw [hsince]; exact hmove.since, fun hp => ?_,
        fun hp => ?_⟩
      · rcases hmove.req with heq | ⟨_, hquiet⟩
        · have hcall : (next.waiting s.calls.length).call = s.calls.length := by
            unfold HandlerNext.waiting
            rw [heq]
          have hroll : (next.waiting s.calls.length).rollback = d.rollback := by
            unfold Handler.rollback
            rw [hkey, hts]
          show (s.calls ++ next.req.toList)[(next.waiting s.calls.length).call]? = _
          rw [hcall, hroll, heq]
          exact List.getElem?_concat_length
        · rw [hphase] at hp
          exact absurd hp (not_or.mpr hquiet)
      · rw [hsince, hkey, hts]
        exact hmove.met (hphase ▸ hp)
  · rcases mem_append.mp ha with ha | ha
    · exact .inl ha
    · right
      obtain ⟨resp, hresp, rfl⟩ := map_eq_some_iff.mp (Option.mem_toList.mp ha)
      show VerdictOk s.db next.handler.key next.handler.ts resp
      rw [hmove.key, hmove.ts]
      exact (hmove.resp resp hresp).2

theorem Ok.serve (hσ : σ.Owned) (h : Ok σ s) {call : Nat} {cmd : Command}
    (hcall : s.calls[call]? = some (.command cmd)) :
    Ok σ { s with
      log := s.log ++ [cmd]
      replies := s.replies ++ [⟨call, { status := (cmd.apply s.db).1 }, s.log.length + 1⟩] } := by
  obtain ⟨key, ts, heq, hstart⟩ := h.calls _ (mem_of_getElem? hcall)
  cases heq
  have hok : StoreOk σ s.db := s.dbAt_length ▸ h.storeOk hσ s.log.length
  obtain ⟨hback, hmet⟩ := hok.of_rollback_status hσ key ts
  have hnow : Store.after (s.log ++ [Command.rollback key ts]) = s.db.exec (.rollback key ts) :=
    Store.after_append s.log [.rollback key ts]
  refine h.extend hσ ⟨prefix_append _ _, prefix_refl _⟩ (fun cmd hc => ?_)
    (fun req hreq => .inl hreq) (fun d hd => .inl hd) (fun r hr => ?_) (fun a ha => .inl ha)
  · rcases mem_append.mp hc with hc | hc
    · exact h.log cmd hc
    · rw [mem_singleton.mp hc]
      exact hstart
  · rcases mem_append.mp hr with hr | hr
    · exact .inl hr
    · right
      rw [mem_singleton.mp hr]
      refine ⟨by simp, key, ts, hcall, fun hstatus => ?_, fun hstatus => ?_⟩
      · show (Store.after (s.log ++ [Command.rollback key ts])).RolledBack key ts
        rw [hnow]
        exact hback (of_decide_eq_true hstatus)
      · show (Store.after ((s.log ++ [Command.rollback key ts]).take
        (s.log.length + 1))).Committed key ts
        rw [take_of_length_le (by simp), hnow]
        exact hmet (of_decide_eq_true hstatus)

theorem Ok.step (hσ : σ.Owned) (h : Ok σ s) {e : ResolveEvent}
    (hc : ∀ cmd ∈ e.commands, cmd.Scheduled σ) (hstep : s.step e = some s') : Ok σ s' := by
  cases e with
  | apply cmd =>
    cases hstep
    refine h.extend hσ ⟨prefix_append _ _, prefix_refl _⟩ (fun cmd' hcmd => ?_)
      (fun req hreq => .inl hreq) (fun d hd => .inl hd) (fun r hr => .inl hr)
      (fun a ha => .inl ha)
    rcases mem_append.mp hcmd with hcmd | hcmd
    · exact h.log cmd' hcmd
    · exact hc cmd' hcmd
  | request key ts =>
    cases hstep
    refine h.extend hσ ⟨prefix_refl _, prefix_refl _⟩ h.log
      (fun req hreq => .inl hreq) (fun d hd => ?_) (fun r hr => .inl hr)
      (fun a ha => .inl ha)
    rcases mem_append.mp hd with hd | hd
    · exact .inl hd
    · right
      rw [mem_singleton.mp hd]
      refine ⟨hc _ (mem_singleton_self _), le_rfl, fun hp => ?_, fun hp => ?_⟩
      · rcases hp with hp | hp <;> cases hp
      · cases hp
  | serve call =>
    unfold Resolving.step at hstep
    dsimp only at hstep
    split at hstep
    · rename_i cmd hcall
      cases hstep
      exact h.serve hσ hcall
    · cases hstep
  | look n view cut alive =>
    obtain ⟨d, hn, hstep⟩ := bind_eq_some_iff.mp hstep
    split at hstep
    · rename_i hguard
      cases hstep
      have hd := h.handlers d (mem_of_getElem? hn)
      exact h.install hσ hn (h.looked hσ hd cut alive hguard.2.1)
    · cases hstep
  | resume n reply =>
    obtain ⟨d, hn, hstep⟩ := bind_eq_some_iff.mp hstep
    obtain ⟨r, hr, hstep⟩ := bind_eq_some_iff.mp hstep
    split at hstep
    · rename_i hguard
      cases hstep
      have hd := h.handlers d (mem_of_getElem? hn)
      refine h.install hσ hn (hd.proposed_move (by simpa using hguard.1) (fun r' hr' => ?_))
      cases hr'
      exact ⟨h.replies r (mem_of_getElem? hr), hguard.2⟩
    · cases hstep
  | fail n =>
    obtain ⟨d, hn, hstep⟩ := bind_eq_some_iff.mp hstep
    split at hstep
    · rename_i hguard
      cases hstep
      have hd := h.handlers d (mem_of_getElem? hn)
      exact h.install hσ hn (hd.proposed_move (by simpa using hguard) nofun)
    · cases hstep

theorem step_answers {e : ResolveEvent} (hstep : s.step e = some s') {a : Answer}
    (ha : a ∈ s.answers) : a ∈ s'.answers := by
  cases e with
  | apply cmd =>
    cases hstep
    exact ha
  | request key ts =>
    cases hstep
    exact ha
  | serve call =>
    unfold Resolving.step at hstep
    dsimp only at hstep
    split at hstep
    · cases hstep
      exact ha
    · cases hstep
  | look n view cut alive =>
    obtain ⟨d, _, hstep⟩ := bind_eq_some_iff.mp hstep
    split at hstep
    · cases hstep
      exact mem_append_left _ ha
    · cases hstep
  | resume n reply =>
    obtain ⟨d, _, hstep⟩ := bind_eq_some_iff.mp hstep
    obtain ⟨r, _, hstep⟩ := bind_eq_some_iff.mp hstep
    split at hstep
    · cases hstep
      exact mem_append_left _ ha
    · cases hstep
  | fail n =>
    obtain ⟨d, _, hstep⟩ := bind_eq_some_iff.mp hstep
    split at hstep
    · cases hstep
      exact mem_append_left _ ha
    · cases hstep

theorem Ok.run (hσ : σ.Owned) {es : List ResolveEvent}
    (hc : ∀ e ∈ es, ∀ cmd ∈ e.commands, cmd.Scheduled σ) (h : Ok σ s)
    (hrun : Machine.run Resolving.step s es = some s') : Ok σ s' :=
  Machine.run_induction (fun _ _ _ hs hP hstep => hs.step hσ hP hstep) h
    (Machine.along_of_forall hc s) hrun

theorem run_answers {es : List ResolveEvent} (hrun : Machine.run Resolving.step s es = some s')
    {a : Answer} (ha : a ∈ s.answers) : a ∈ s'.answers :=
  Machine.run_invariant (I := fun s => a ∈ s.answers) (fun _ _ _ ha hstep => step_answers hstep ha)
    ha hrun

theorem Ok.empty (σ : Schedule) : Ok σ {} where
  log := nofun
  calls := nofun
  handlers := nofun
  replies := nofun
  answers := nofun

end

/-! ## The verdict. -/

/-- **One verdict**: an answer `a` to `TXN_RESOLVE` names the commit record that its primary
carries from then on, or the primary carries the rollback marker and no commit record from
then on; and every other answer for the transaction is the same. -/
theorem resolve_verdict {es es' : List ResolveEvent}
    (hd : Disciplined ((es ++ es').flatMap ResolveEvent.commands)) {s s' : Resolving}
    (h : Machine.run Resolving.step {} es = some s)
    (h' : Machine.run Resolving.step s es' = some s') {a : Answer} (ha : a ∈ s.answers)
    (hok : a.resp.status.isOk = true) :
    (a.resp.ts ≠ 0 → s'.db.CommittedAt a.key a.ts a.resp.ts) ∧
    (a.resp.ts = 0 → s'.db.RolledBack a.key a.ts ∧ ¬ s'.db.Committed a.key a.ts) ∧
    ∀ b ∈ s'.answers, b.resp.status.isOk = true → b.key = a.key → b.ts = a.ts →
      b.resp.ts = a.resp.ts := by
  have hσ := hd.owned
  have hc : ∀ e ∈ es ++ es', ∀ cmd ∈ e.commands,
      cmd.Scheduled (scheduleOf ((es ++ es').flatMap ResolveEvent.commands)) :=
    fun e he cmd hcmd => scheduled_of_mem (mem_flatMap.mpr ⟨e, he, hcmd⟩)
  have hs := Ok.run hσ (fun e he => hc e (mem_append_left _ he)) (Ok.empty _) h
  have hs' := Ok.run hσ (fun e he => hc e (mem_append_right _ he)) hs h'
  have hstore := s'.dbAt_length ▸ hs'.storeOk hσ s'.log.length
  obtain ⟨hfwd, hback⟩ := hs'.answers a (run_answers h' ha) hok
  refine ⟨hfwd, fun hz => ⟨hback hz, fun hcommitted => hstore.not_both hcommitted (hback hz)⟩,
    fun b hb hbok hkey hts => ?_⟩
  obtain ⟨hfwd', hback'⟩ := hs'.answers b hb hbok
  rw [hkey, hts] at hfwd' hback'
  have hcommitted : ∀ c, s'.db.CommittedAt a.key a.ts c → s'.db.Committed a.key a.ts :=
    fun c ⟨w, hw, _, hrest⟩ => ⟨w, hw, hrest⟩
  by_cases hz : a.resp.ts = 0
  · by_cases hz' : b.resp.ts = 0
    · exact hz'.trans hz.symm
    · exact (hstore.not_both (hcommitted _ (hfwd' hz')) (hback hz)).elim
  · by_cases hz' : b.resp.ts = 0
    · exact (hstore.not_both (hcommitted _ (hfwd hz)) (hback' hz')).elim
    · -- a transaction has one record on its primary
      obtain ⟨w, hw, hslot, hstart, _⟩ := hfwd hz
      obtain ⟨w', hw', hslot', hstart', _⟩ := hfwd' hz'
      rw [← hslot, ← hslot', (hstore a.key).one w hw w' hw' (hstart.trans hstart'.symm)]

/-- A resolver finds the lock expired, and the commit comes in before its rollback. -/
def lateRollback : List ResolveEvent :=
  [.apply (.prewrite [7] [1] .put 1 [7] 0), .request [7] 1, .look 0 1 0 false,
    .apply (.commit [7] 1 2), .serve 0, .resume 0 0, .look 0 3 0 false]

/-- A second resolver asks in the middle of a repeated commit. -/
def askedAgain : List ResolveEvent :=
  [.request [7] 1, .apply (.commit [7] 1 2), .look 1 3 1 false, .look 1 3 1 false]

theorem disciplined_lateRollback :
    Disciplined ((lateRollback ++ askedAgain).flatMap ResolveEvent.commands) where
  later := by
    intro key s c h
    simp [lateRollback, askedAgain, ResolveEvent.commands] at h
    omega
  owner := by
    intro key key' s s' c h h'
    simp [lateRollback, askedAgain, ResolveEvent.commands] at h h'
    omega
  apart := by
    intro key s c h cmd hcmd
    simp [lateRollback, askedAgain, ResolveEvent.commands] at h hcmd
    rcases hcmd with rfl | rfl | rfl | rfl | rfl <;> simp [Command.startTs] <;> omega

theorem resolve_verdict_lateRollback :
    ∃ s s', Machine.run Resolving.step {} lateRollback = some s ∧
      Machine.run Resolving.step s askedAgain = some s' ∧
      ∃ a ∈ s.answers, a.resp.status.isOk = true ∧ a.key = [7] ∧ a.ts = 1 ∧ a.resp.ts = 2 ∧
        s'.answers.length = 2 ∧ s'.db.CommittedAt a.key a.ts a.resp.ts ∧
        ∀ b ∈ s'.answers, b.resp.status.isOk = true → b.key = a.key → b.ts = a.ts →
          b.resp.ts = a.resp.ts := by
  obtain ⟨s, h, s', h', a, ha, hok, hkey, hts, hverdict, hlen⟩ : ∃ s,
      Machine.run Resolving.step {} lateRollback = some s ∧
        ∃ s', Machine.run Resolving.step s askedAgain = some s' ∧
          ∃ a, s.answers.head? = some a ∧ a.resp.status.isOk = true ∧ a.key = [7] ∧ a.ts = 1 ∧
            a.resp.ts = 2 ∧ s'.answers.length = 2 := by decide +kernel
  have hmem := List.mem_of_mem_head? ha
  obtain ⟨hfwd, _, hsame⟩ := resolve_verdict disciplined_lateRollback h h' hmem hok
  exact ⟨s, s', h, h', a, hmem, hok, hkey, hts, hverdict, hlen,
    hfwd (by rw [hverdict]; decide), hsame⟩

end Resolving

end Flotilla.Txn
