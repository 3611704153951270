/-
  Txn.Atomicity — a transaction commits or rolls back as a whole.

  Every step keeps `Inv`, with one exception: `Commit` answers a failed reply to
  its primary commit with `abort_all`, although that commit may have been or may
  yet be applied.  `settled` excludes the rollbacks of other keys that this sends
  before the primary is rolled back.
-/
import Flotilla.Txn.Steps

namespace Flotilla.Txn

/-! ## Moves of a coordinator. -/

section

variable {s : Sys}

/-- What a transaction may send on its way to the state `t`. -/
inductive Sends (s : Sys) (t : Txn) : Option Request → Prop
  | nothing (hphase : t.phase = .done) : Sends s t none
  | allocate (hphase : t.phase = .allocating) (hs : t.startTs ≠ 0) (hc : t.commitTs = 0) :
      Sends s t (some .txnTs)
  | prewrite {todo : List (Key × Mutation)} {attempt : Nat} {key : Key} {value : Bytes}
      {op : WriteOp} {wall : Nat} (hphase : t.phase = .prewriting todo attempt)
      (hs : t.startTs ≠ 0) (hc : t.commitTs = 0) (htodo : todo ≠ []) :
      Sends s t (some (.command (.prewrite key value op t.startTs t.primary wall)))
  | resolve {todo : List (Key × Mutation)} {attempt : Nat} {lock : BlockingLock}
      (hphase : t.phase = .resolving todo attempt lock) (hs : t.startTs ≠ 0)
      (hc : t.commitTs = 0) (hp : s.IsPrimary lock.primary lock.ts) :
      Sends s t (some lock.resolve)
  | fix {todo : List (Key × Mutation)} {attempt : Nat} {lock : BlockingLock} {req : Request}
      (hphase : t.phase = .fixing todo attempt lock) (hs : t.startTs ≠ 0) (hc : t.commitTs = 0)
      (hreq : s.RequestOk req) : Sends s t (some req)
  | commit (hphase : t.phase = .committing) (hs : t.startTs ≠ 0) (hc : t.commitTs ≠ 0) :
      Sends s t (some (.command (.commit t.primary t.startTs t.commitTs)))
  | finish {todo : List Key} {key : Key} (hphase : t.phase = .finishing todo)
      (hs : t.startTs ≠ 0) (hc : t.commitTs ≠ 0) (hp : s.db.Committed t.primary t.startTs) :
      Sends s t (some (.command (.commit key t.startTs t.commitTs)))
  | abort {todo : List Key} {key : Key} (hphase : t.phase = .aborting todo) (hs : t.startTs ≠ 0)
      (hwhy : key = t.primary ∨ s.db.RolledBack t.primary t.startTs ∨ t.commitTs = 0) :
      Sends s t (some (.command (.rollback key t.startTs)))

/-- A move of transaction `t`, which runs as process `n`. -/
structure Move (s : Sys) (n : Nat) (t : Txn) (next : Txn.Next) : Prop where
  keeps : t.Keeps next.1
  start : next.1.startTs ≠ 0 → s.DrewFor n next.1.startTs ∧ next.1.startTs ≤ s.clock
  commit : next.1.commitTs ≠ 0 →
    next.1.startTs ≠ 0 ∧ next.1.startTs < next.1.commitTs ∧ s.DrewFor n next.1.commitTs
  sends : Sends s next.1 next.2

variable {t : Txn}

theorem Move.of_same {n : Nat} {next : Txn.Next} (h : TxnOk s n t)
    (hm : next.1.mutations = t.mutations) (hs : next.1.startTs = t.startTs)
    (hc : next.1.commitTs = t.commitTs) (hd : t.Dead → next.1.Dead)
    (hsends : Sends s next.1 next.2) : Move s n t next where
  keeps := ⟨hm, fun _ => hs, fun _ => hc, hd⟩
  start := by
    rw [hs]
    exact h.start
  commit := by
    rw [hs, hc]
    exact h.commit
  sends := hsends

theorem Inv.move (h : Inv s) {n : Nat} {next : Txn.Next} (ht : s.HasTxn n t)
    (hmove : Move s n t next) :
    Inv (s.install n (fun call => .txn { next.1 with call := call }) next.2) := by
  obtain ⟨t', req⟩ := next
  have hsends : Sends s t' req := hmove.sends
  have hkeeps : ∀ u, Proc.txn t = .txn u → ∃ u', Proc.txn { t' with call := s.sent.length } =
      .txn u' ∧ u.Keeps u' := by
    intro u hu
    cases hu
    exact ⟨_, rfl, hmove.keeps.mutations, hmove.keeps.startTs, hmove.keeps.commitTs,
      hmove.keeps.dead⟩
  have hl : Later s (s.install n (fun call => .txn { t' with call := call }) req) :=
    .install ht hkeeps
  have hself : s.HasTxn n t → t'.startTs ≠ 0 →
      (s.install n (fun call => .txn { t' with call := call }) req).IsTxn t'.startTs
        { t' with call := s.sent.length } := fun hn hs =>
    ⟨hs, rfl, n, Sys.install_proc hn _ _⟩
  refine h.install ht hkeeps (fun r hr => ?_) ⟨fun hs => ?_, fun hc => ?_, ?_⟩
  · subst hr
    cases hsends with
    | allocate _ _ _ => trivial
    | prewrite _ hs _ _ => exact ⟨_, hself ht hs, rfl⟩
    | resolve _ _ _ hp => exact hl.isPrimary hp
    | fix _ _ _ hreq => exact hl.requestOk hreq
    | commit _ hs hc => exact ⟨_, hself ht hs, rfl, hc, .inl rfl⟩
    | finish _ hs hc hp => exact ⟨_, hself ht hs, rfl, hc, .inr (hl.committed hp)⟩
    | abort hphase hs hwhy =>
      refine ⟨_, hself ht hs, hwhy.imp id (Or.imp hl.rolledBack fun hc => ⟨hc, ?_⟩)⟩
      dsimp only
      rw [hphase]
      trivial
  · obtain ⟨hd, hle⟩ := hmove.start hs
    exact ⟨hl.drewFor hd, hle⟩
  · obtain ⟨hs, hlt, hd⟩ := hmove.commit hc
    exact ⟨hs, hlt, hl.drewFor hd⟩
  · have hcall : ∀ r, req = some r → (s.install n (fun call => .txn { t' with call := call })
        req).sent[s.sent.length]? = some ⟨n, r, s.clock⟩ := by
      rintro r rfl
      exact Sys.install_sent ..
    generalize s.install n (fun call => .txn { t' with call := call }) req = s' at hl hcall ⊢
    unfold PhaseOk
    cases hsends with
    | nothing hphase => simp only [hphase]
    | allocate hphase hs hc =>
      simp only [hphase]
      exact ⟨hs, hc, _, hcall _ rfl, rfl, rfl, (hmove.start hs).2⟩
    | prewrite hphase hs hc htodo =>
      simp only [hphase]
      exact ⟨hs, hc, htodo⟩
    | resolve hphase hs hc hp =>
      simp only [hphase]
      exact ⟨hs, hc, hl.isPrimary hp, _, hcall _ rfl, rfl⟩
    | fix hphase hs hc _ =>
      simp only [hphase]
      exact ⟨hs, hc⟩
    | commit hphase hs hc =>
      simp only [hphase]
      exact ⟨hs, hc, _, hcall _ rfl, rfl⟩
    | finish hphase hs hc hp =>
      simp only [hphase]
      exact ⟨hs, hc, hl.committed hp⟩
    | abort hphase hs _ =>
      simp only [hphase]
      exact hs

theorem Txn.not_dead (hdone : t.phase ≠ .done) (habort : ∀ todo, t.phase ≠ .aborting todo) :
    ¬ t.Dead := by
  rintro ⟨_, hphase⟩
  split at hphase
  · exact habort _ (by assumption)
  · exact hdone (by assumption)
  · exact hphase

theorem Sends.prewrite_next {u : Txn} (hs : u.startTs ≠ 0) (hc : u.commitTs = 0)
    (todo : List (Key × Mutation)) (attempt : Nat) :
    Sends s (u.prewrite todo attempt).1 (u.prewrite todo attempt).2 := by
  cases todo with
  | nil => exact .allocate rfl hs hc
  | cons m todo => exact .prewrite rfl hs hc (cons_ne_nil m todo)

theorem Txn.prewrite_same (u : Txn) (todo : List (Key × Mutation)) (attempt : Nat) :
    (u.prewrite todo attempt).1.mutations = u.mutations ∧
      (u.prewrite todo attempt).1.startTs = u.startTs ∧
      (u.prewrite todo attempt).1.commitTs = u.commitTs := by
  cases todo with
  | nil | cons m todo => exact ⟨rfl, rfl, rfl⟩

section

variable {n : Nat} {t : Txn}

section

variable (h : TxnOk s n t) (hs : t.startTs ≠ 0)

include h hs

theorem Move.rollbackNext {todo : List Key}
    (hwhy : t.commitTs ≠ 0 → ∀ key, todo.head? = some key →
      key = t.primary ∨ s.db.RolledBack t.primary t.startTs) :
    Move s n t (t.rollbackNext todo) := by
  cases todo with
  | nil => exact .of_same h rfl rfl rfl (fun hd => ⟨hd.1, trivial⟩) (.nothing rfl)
  | cons key todo =>
    refine .of_same h rfl rfl rfl (fun hd => ⟨hd.1, trivial⟩) (.abort rfl hs ?_)
    by_cases hc : t.commitTs = 0
    · exact .inr (.inr hc)
    · exact (hwhy hc key rfl).imp id Or.inl

theorem Move.abortAll (hc : t.commitTs = 0) : Move s n t t.abortAll :=
  .rollbackNext h hs (fun hne => absurd hc hne)

theorem Move.prewrite (hc : t.commitTs = 0)
    (hdead : ¬ t.Dead) {u : Txn} (hm : u.mutations = t.mutations) (hus : u.startTs = t.startTs)
    (huc : u.commitTs = t.commitTs) (todo : List (Key × Mutation)) (attempt : Nat) :
    Move s n t (u.prewrite todo attempt) := by
  obtain ⟨hm', hs', hc'⟩ := u.prewrite_same todo attempt
  exact .of_same h (hm'.trans hm) (hs'.trans hus) (hc'.trans huc) (fun hd => absurd hd hdead)
    (.prewrite_next (by rw [hus]; exact hs) (by rw [huc]; exact hc) todo attempt)

theorem Move.retry (hc : t.commitTs = 0)
    (hdead : ¬ t.Dead) (todo : List (Key × Mutation)) (attempt : Nat) :
    Move s n t (t.retry todo attempt) := by
  unfold Txn.retry
  split
  · exact .prewrite h hs hc hdead rfl rfl rfl todo (attempt + 1)
  · exact .abortAll h hs hc

theorem Move.commitNext (hc : t.commitTs ≠ 0)
    (hp : s.db.Committed t.primary t.startTs) (todo : List Key) :
    Move s n t (t.commitNext todo) := by
  cases todo with
  | nil => exact .of_same h rfl rfl rfl (fun hd => absurd hd.1 hc) (.nothing rfl)
  | cons key todo =>
    exact .of_same h rfl rfl rfl (fun hd => absurd hd.1 hc) (.finish rfl hs hc hp)

end

theorem Learns.drew {call : Nat} {r : Reply} (hr : Learns s call r) {c : Call}
    (hc : s.sent[call]? = some c) (hreq : c.req = .txnTs) (hproc : c.proc = n) :
    s.DrewFor n r.resp.ts ∧ c.clock < r.resp.ts ∧ r.resp.ts ≤ s.clock := by
  obtain ⟨r₀, hmem, hcall, hts⟩ := hr.source
  have hans := hr.answer c hc
  unfold Sys.AnswerOk at hans
  rw [hreq] at hans
  exact ⟨⟨r₀, hmem, hts, c, by rw [hcall]; exact hc, hreq, hproc⟩, hans⟩

end

end

/-! ## The condition. -/

/-- The key that `abort_all` rolls back next, when `result` ends the outstanding call. -/
def Txn.rollsBack (t : Txn) (result : Option Response) : Option Key :=
  match t.phase with
  | .committing =>
      if result.any (fun resp => resp.status.isOk) then none else t.prewritten.head?
  | .aborting todo => todo.head?
  | _ => none

/-- A coordinator that has sent its primary commit rolls another key back only if the
primary already carries the rollback marker. -/
def settled (s : Sys) : Event → Bool
  | .step n choice =>
      match s.procs[n]? with
      | some (.txn t) =>
          (s.result t.call choice).all fun reply =>
            (t.rollsBack (reply.map Reply.resp)).all fun key =>
              t.commitTs == 0 || key == t.primary || decide (s.db.RolledBack t.primary t.startTs)
      | _ => true
  | _ => true

section

variable {s : Sys} {n : Nat} {t : Txn}

variable {reply : Option Reply} {d : Handler} {s' : Sys}

theorem Inv.advance (h : Inv s) (ht : s.HasTxn n t) (hdone : t.phase ≠ .done)
    (hlearns : ∀ r, reply = some r → Learns s t.call r)
    (hset : t.commitTs ≠ 0 → ∀ key, t.rollsBack (reply.map Reply.resp) = some key →
      key = t.primary ∨ s.db.RolledBack t.primary t.startTs) :
    Move s n t (t.advance (reply.map Reply.resp)) := by
  have hok := h.txn ht
  have hp := hok.phase
  unfold PhaseOk at hp
  unfold Txn.rollsBack at hset
  unfold Txn.advance
  cases hphase : t.phase with
  | done => exact absurd hphase hdone
  | beginning =>
    rw [hphase] at hp
    obtain ⟨hs, hc, call, hcall, hreq, hproc⟩ := hp
    have hdead : ¬ t.Dead := Txn.not_dead hdone (by rw [hphase]; simp)
    have hgiveUp : Move s n t ({ t with phase := .done }, none) :=
      .of_same hok rfl rfl rfl (fun hd => ⟨hd.1, trivial⟩) (.nothing rfl)
    cases reply with
    | none => exact hgiveUp
    | some r =>
      obtain ⟨hdrew, hlt, hle⟩ := (hlearns r rfl).drew hcall hreq hproc
      have hne : r.resp.ts ≠ 0 := by omega
      simp only [map_some]
      split
      · split
        · exact ⟨⟨rfl, fun hs' => absurd hs hs', fun _ => rfl, fun hd => absurd hd hdead⟩,
            fun _ => ⟨hdrew, hle⟩, fun hc' => absurd hc hc', .nothing rfl⟩
        · obtain ⟨hm', hs', hc'⟩ :=
            ({ t with startTs := r.resp.ts, phase := .beginning } : Txn).prewrite_same
              t.mutations.list 0
          refine ⟨⟨hm', fun hs' => absurd hs hs', fun _ => hc', fun hd => absurd hd hdead⟩,
            fun _ => ?_, fun hne' => absurd (hc'.trans hc) hne', ?_⟩
          · rw [hs']
            exact ⟨hdrew, hle⟩
          · apply Sends.prewrite_next
            · exact hne
            · exact hc
      · exact hgiveUp
  | prewriting todo attempt =>
    rw [hphase] at hp
    obtain ⟨hs, hc, htodo⟩ := hp
    have hdead : ¬ t.Dead := Txn.not_dead hdone (by rw [hphase]; simp)
    cases reply with
    | none => exact .abortAll hok hs hc
    | some r =>
      simp only [map_some]
      split
      · rename_i hcf
        split
        · exact .retry hok hs hc hdead todo attempt
        · exact .of_same hok rfl rfl rfl (fun hd => absurd hd hdead)
            (.resolve rfl hs hc ((hlearns r rfl).lock hcf.2))
      · split
        · exact .abortAll hok hs hc
        · cases todo with
          | nil => exact absurd rfl htodo
          | cons m rest =>
            apply Move.prewrite hok hs hc hdead
            · rfl
            · rfl
            · rfl
  | resolving todo attempt lock =>
    rw [hphase] at hp
    obtain ⟨hs, hc, hprim, call, hcall, hreq⟩ := hp
    have hdead : ¬ t.Dead := Txn.not_dead hdone (by rw [hphase]; simp)
    cases reply with
    | none => exact .abortAll hok hs hc
    | some r =>
      simp only [map_some]
      split
      · rename_i hstatus
        exact .of_same hok rfl rfl rfl (fun hd => absurd hd hdead)
          (.fix rfl hs hc (h.fix_justified hprim hcall hreq (hlearns r rfl) hstatus))
      · split
        · exact .retry hok hs hc hdead todo attempt
        · exact .abortAll hok hs hc
  | fixing todo attempt lock =>
    rw [hphase] at hp
    obtain ⟨hs, hc⟩ := hp
    have hdead : ¬ t.Dead := Txn.not_dead hdone (by rw [hphase]; simp)
    cases reply with
    | none => exact .abortAll hok hs hc
    | some r =>
      simp only [map_some]
      split
      · exact .retry hok hs hc hdead todo attempt
      · exact .abortAll hok hs hc
  | allocating =>
    rw [hphase] at hp
    obtain ⟨hs, hc, call, hcall, hreq, hproc, hclock⟩ := hp
    have hdead : ¬ t.Dead := Txn.not_dead hdone (by rw [hphase]; simp)
    cases reply with
    | none => exact .abortAll hok hs hc
    | some r =>
      obtain ⟨hdrew, hlt, _⟩ := (hlearns r rfl).drew hcall hreq hproc
      simp only [map_some]
      split
      · refine ⟨⟨rfl, fun _ => rfl, fun hc' => absurd hc hc', fun hd => absurd hd hdead⟩,
          hok.start, fun _ => ⟨hs, ?_, hdrew⟩, .commit rfl hs ?_⟩
        · exact hclock.trans_lt hlt
        · exact Nat.ne_of_gt (Nat.zero_lt_of_lt hlt)
      · exact .abortAll hok hs hc
  | committing =>
    rw [hphase] at hp hset
    obtain ⟨hs, hc, call, hcall, hreq⟩ := hp
    -- the reply is lost or bad: the commit may still be applied
    have habort : (reply.map Reply.resp).any (fun resp => resp.status.isOk) = false →
        Move s n t t.abortAll := by
      intro hbad
      refine .rollbackNext hok hs (fun hne key hkey => hset hne key ?_)
      rw [hbad]
      exact hkey
    cases reply with
    | none => exact habort rfl
    | some r =>
      simp only [map_some]
      split
      · rename_i hstatus
        have hans := (hlearns r rfl).answer call hcall
        unfold Sys.AnswerOk at hans
        rw [hreq] at hans
        exact .commitNext hok hs hc (hans hstatus) t.secondaries
      · rename_i hstatus
        exact habort (by simpa using hstatus)
  | finishing todo =>
    rw [hphase] at hp
    exact .commitNext hok hp.1 hp.2.1 hp.2.2 todo
  | aborting todo =>
    rw [hphase] at hp hset
    exact .rollbackNext hok hp hset

/-! ## Readers and lock resolution. -/

theorem Inv.reader_step (h : Inv s) {r : Reader} (hr : s.procs[n]? = some (.reader r))
    (hlearns : ∀ r', reply = some r' → Learns s r.call r') :
    Inv (s.install n (fun call => .reader { (r.advance (reply.map Reply.resp)).1 with call := call })
      (r.advance (reply.map Reply.resp)).2) := by
  have hok : ReaderOk s r := h.procs n _ hr
  have hl : Later s (s.install n (fun call => .reader { (r.advance (reply.map Reply.resp)).1 with
      call := call }) (r.advance (reply.map Reply.resp)).2) :=
    .install hr nofun
  -- a reader goes from `resolving` to `fixing` with a justified request, or it is done
  have hnext : (r.advance (reply.map Reply.resp)).1.lock = r.lock ∧
      (r.advance (reply.map Reply.resp)).1.phase ≠ .resolving ∧
      ∀ req, (r.advance (reply.map Reply.resp)).2 = some req → s.RequestOk req := by
    unfold Reader.advance
    split
    · rename_i hphase hreply
      obtain ⟨r', rfl, rfl⟩ := map_eq_some_iff.mp hreply
      split
      · rename_i hstatus
        obtain ⟨call, hcall, hreq⟩ := hok.asked (by rw [hphase]; trivial)
        refine ⟨rfl, by simp, fun req hreq' => ?_⟩
        cases hreq'
        exact h.fix_justified hok.primary hcall hreq (hlearns r' rfl) hstatus
      · exact ⟨rfl, by simp, nofun⟩
    · exact ⟨rfl, by simp, nofun⟩
  obtain ⟨hlock, hphase, hreq⟩ := hnext
  refine h.install hr nofun (fun req hr' => hl.requestOk (hreq req hr')) ⟨?_, fun hp => ?_⟩
  · show Sys.IsPrimary _ (r.advance (reply.map Reply.resp)).1.lock.primary
      (r.advance (reply.map Reply.resp)).1.lock.ts
    rw [hlock]
    exact hl.isPrimary hok.primary
  · split at hp
    · rename_i heq
      exact absurd heq hphase
    · exact absurd hp id

theorem HandlerOk.proposed_move (hd : HandlerOk s d)
    (hphase : d.phase = .expiring ∨ d.phase = .poisoning)
    (hlearns : ∀ r, reply = some r → Learns s d.call r) :
    d.Move s.log (d.proposed reply) := by
  refine .proposed hd.since (fun r hr => ?_)
  obtain ⟨call, hcall, hreq⟩ := hd.proposed hphase
  have hans := (hlearns r hr).answer call hcall
  unfold Sys.AnswerOk at hans
  rw [hreq] at hans
  exact ⟨(hlearns r hr).time, hans⟩

theorem HandlerOk.moved {next : HandlerNext} (hok : HandlerOk s d) (hmove : d.Move s.log next)
    (hl : Later s s')
    (hsent : ∀ r, next.req = some r → ∃ c, s'.sent[s.sent.length]? = some c ∧ c.req = r) :
    HandlerOk s' (next.waiting s.sent.length) := by
  obtain ⟨hclient, hkey, hts, hsince, hphase⟩ := hmove.waiting s.sent.length
  refine ⟨?_, ?_, ?_, fun hp => ?_, fun hp => ?_⟩
  · rw [hkey, hts]
    exact hl.isPrimary hok.primary
  · obtain ⟨c, hc, hreq⟩ := hok.client
    rw [hclient, hkey, hts]
    exact ⟨c, hl.sent hc, hreq⟩
  · rw [hsince]
    exact hmove.since.trans hl.length
  · rcases hmove.req with hreq | ⟨_, hquiet⟩
    · obtain ⟨c, hc, hcreq⟩ := hsent _ hreq
      refine ⟨c, ?_, ?_⟩
      · unfold HandlerNext.waiting
        rw [hreq]
        exact hc
      · rw [hcreq]
        unfold Handler.rollback
        rw [hkey, hts]
    · rw [hphase] at hp
      exact absurd hp (not_or.mpr hquiet)
  · rw [hsince, hkey, hts, hl.past _ hmove.since]
    exact hmove.met (hphase ▸ hp)

theorem Inv.handler_step (h : Inv s) (hn : s.procs[n]? = some (.handler d)) {next : HandlerNext}
    (hmove : d.Move s.log next) : Inv (s.installHandler n next) := by
  have hok : HandlerOk s d := h.procs n _ hn
  have hl : Later s (s.install n (fun call => .handler (next.waiting call)) next.req) :=
    .install hn nofun
  have hinst : Inv (s.install n (fun call => .handler (next.waiting call)) next.req) := by
    refine h.install hn nofun (fun r hr => ?_) (hok.moved hmove hl fun r hr => ?_)
    · rcases hmove.req with hreq | ⟨hreq, _⟩
      · cases hr.symm.trans hreq
        -- the rollback of a primary is always justified
        obtain ⟨t, ht, hprim⟩ := hok.primary
        have hj : s.Justified (.rollback d.key d.ts) := ⟨t, ht, .inl hprim.symm⟩
        exact hl.justified hj
      · cases hr.symm.trans hreq
    · rw [hr]
      exact ⟨_, Sys.install_sent .., rfl⟩
  unfold Sys.installHandler
  cases hresp : next.resp with
  | none => exact hinst
  | some resp =>
    obtain ⟨hplain, hanswer⟩ := hmove.resp resp hresp
    obtain ⟨c, hc, hreq⟩ := hok.client
    have hc' : (s.install n (fun call => .handler (next.waiting call))
        next.req).sent[next.handler.client]? = some c := by
      rw [hmove.client]
      exact hl.sent hc
    refine hinst.reply ?_ rfl rfl rfl (fun cmd hcmd => .inl hcmd)
      ⟨le_rfl, hplain, c, hc', ?_⟩ (fun c'' hc'' hts => ?_)
    · exact .of_same_log le_rfl rfl prefix_rfl (prefix_append _ _) (fun ht => ⟨_, ht, .refl _⟩)
    · unfold Sys.AnswerOk
      rw [hreq]
      exact hanswer
    · cases hc'.symm.trans hc''
      rw [hreq] at hts
      cases hts

/-! ## Runs. -/

theorem Inv.empty : Inv {} where
  calls := nofun
  applied := nofun
  replies := nofun
  unique := nofun
  procs := nofun

/-- A transaction takes its next step, its lost replies settled. -/
theorem Inv.txn_step (h : Inv s) (ht : s.HasTxn n t) {choice : Choice}
    (hset : settled s (.step n choice) = true) (hstep : s.stepProc n choice (.txn t) = some s') :
    Inv s' := by
  unfold Sys.stepProc at hstep
  dsimp only at hstep
  split at hstep
  · cases hstep
  · rename_i hdone
    obtain ⟨reply, hres, rfl⟩ := map_eq_some_iff.mp hstep
    refine h.move ht (h.advance ht hdone (fun r hr => h.learns (hr ▸ hres)) fun hc key hkey => ?_)
    unfold settled at hset
    have hproc : s.procs[n]? = some (.txn t) := ht
    simp only [hproc, hres, Option.all_some, hkey, Bool.or_eq_true, beq_iff_eq,
      decide_eq_true_eq] at hset
    rcases hset with (hz | hp) | hr
    · exact absurd hz hc
    · exact .inl hp
    · exact .inr hr

/-- The invariant of the whole system, over one event. -/
theorem Inv.step (h : Inv s) {e : Event} (hset : settled s e = true) (hstep : s.step e = some s') :
    Inv s' := by
  cases e with
  | begin mutations wall =>
    cases hstep
    refine h.spawn trivial ⟨fun hs => absurd rfl hs, fun hc => absurd rfl hc, rfl, rfl, ?_⟩
    exact ⟨_, List.getElem?_concat_length, rfl, rfl⟩
  | read key view =>
    simp only [Sys.step] at hstep
    split at hstep
    · split at hstep
      · rename_i l hlock
        split at hstep
        · cases hstep
        · cases hstep
          have hp := h.lock_primary hlock
          refine h.spawn ?_ ⟨?_, fun _ => ⟨_, List.getElem?_concat_length, rfl⟩⟩
          · exact (Later.spawn s _ _).isPrimary hp
          · exact (Later.spawn s _ _).isPrimary hp
      · cases hstep
    · cases hstep
  | serve i =>
    obtain ⟨c, hc, rfl⟩ := map_eq_some_iff.mp hstep
    cases hreq : c.req with
    | txnTs => exact h.serve_ts hc hreq
    | command cmd => exact h.serve_command hc hreq
    | txnResolve key ts => exact h.serve_resolve hc hreq
  | step n choice =>
    obtain ⟨p, hp, hstep⟩ := bind_eq_some_iff.mp hstep
    cases p with
    | txn t => exact h.txn_step hp hset hstep
    | reader r =>
      unfold Sys.stepProc at hstep
      dsimp only at hstep
      split at hstep
      · cases hstep
      · obtain ⟨reply, hres, rfl⟩ := map_eq_some_iff.mp hstep
        exact h.reader_step hp (fun r' hr => h.learns (hr ▸ hres))
    | handler d =>
      have hd : HandlerOk s d := h.procs n _ hp
      unfold Sys.stepProc at hstep
      dsimp only at hstep
      split at hstep
      · split at hstep
        · rename_i hguard
          cases hstep
          exact h.handler_step hp (.looked _ h.owned (fun _ => h.scheduled)
            hd.since hd.met hguard.2.1 rfl)
        · cases hstep
      · split at hstep
        · rename_i hphase
          obtain ⟨reply, hres, rfl⟩ := map_eq_some_iff.mp hstep
          refine h.handler_step hp (hd.proposed_move ?_ fun r hr => h.learns (hr ▸ hres))
          simpa using hphase
        · cases hstep

end

/-- **Atomicity**: in every run in which no coordinator rolls a secondary back while its
primary commit is unsettled, no transaction is committed on its primary and rolled back on
another key, nor the other way round. -/
theorem commit_all_or_nothing {es : List Event} {s : Sys}
    (hrun : Machine.run Sys.step {} es = some s)
    (hset : Machine.Along Sys.step (fun s e => settled s e = true) {} es) {t : Txn}
    (ht : Proc.txn t ∈ s.procs) {key : Key} (hkey : key ≠ t.primary) :
    ¬ (s.db.Committed t.primary t.startTs ∧ s.db.RolledBack key t.startTs) ∧
      ¬ (s.db.RolledBack t.primary t.startTs ∧ s.db.Committed key t.startTs) := by
  have hinv : Inv s := Machine.run_induction (fun s e s' h hP hstep => h.step hP hstep) .empty
    hset hrun
  obtain ⟨n, hn⟩ := mem_iff_getElem?.mp ht
  exact hinv.atomic hn hkey

/-! ## Two runs of one transaction. -/

/-- The transaction that runs as process 0. -/
def Sys.first? (s : Sys) : Option Txn :=
  match s.procs with
  | .txn t :: _ => some t
  | _ => none

theorem Sys.mem_of_first? {s : Sys} {t : Txn} (h : s.first? = some t) : Proc.txn t ∈ s.procs := by
  unfold Sys.first? at h
  split at h
  · rename_i t' rest hprocs
    cases h
    rw [hprocs]
    exact mem_cons_self
  · cases h

def twoKeys : Mutations := ⟨[([97], ⟨.put, [1]⟩), ([98], ⟨.put, [2]⟩)], by decide⟩

/-- Both keys are prewritten and the commit of the primary is sent. -/
def untilCommit : List Event :=
  [.begin twoKeys 0, .serve 0, .step 0 (.reply 0 0), .serve 1, .step 0 (.reply 1 1), .serve 2,
    .step 0 (.reply 2 2), .serve 3, .step 0 (.reply 3 2)]

/-- The lock of the primary expires and a reader has it rolled back; the commit then fails
and both keys are rolled back. -/
def expired : List Event :=
  untilCommit ++ [.read [97] 2, .serve 5, .step 2 (.look 2 false), .serve 6, .step 2 (.reply 4 3),
    .step 2 (.look 3 false), .serve 4, .step 0 (.reply 6 4), .serve 7, .step 0 (.reply 7 5),
    .serve 8]

theorem commit_all_or_nothing_expired :
    ∃ s t, Machine.run Sys.step {} expired = some s ∧
      Machine.Along Sys.step (fun s e => settled s e = true) {} expired ∧
      Proc.txn t ∈ s.procs ∧ [98] ≠ t.primary ∧ s.db.RolledBack t.primary t.startTs ∧
      s.db.RolledBack [98] t.startTs ∧
      ¬ (s.db.Committed t.primary t.startTs ∧ s.db.RolledBack [98] t.startTs) ∧
      ¬ (s.db.RolledBack t.primary t.startTs ∧ s.db.Committed [98] t.startTs) := by
  have hset : Machine.Along Sys.step (fun s e => settled s e = true) {} expired := by
    decide +kernel
  obtain ⟨s, hs, t, ht, hkey, hprim, hother⟩ : ∃ s, Machine.run Sys.step {} expired = some s ∧
      ∃ t, s.first? = some t ∧ [98] ≠ t.primary ∧ s.db.RolledBack t.primary t.startTs ∧
        s.db.RolledBack [98] t.startTs := by decide +kernel
  have hmem := Sys.mem_of_first? ht
  exact ⟨s, t, hs, hset, hmem, hkey, hprim, hother, commit_all_or_nothing hs hset hmem hkey⟩

/-- The commit of the primary is applied but its reply is lost: `abort_all` sends the
rollbacks, and the one of the other key is applied. -/
def replyLost : List Event :=
  untilCommit ++ [.serve 4, .step 0 .fail, .step 0 .fail, .serve 6]

theorem half_committed :
    ∃ s t, Machine.run Sys.step {} replyLost = some s ∧ Proc.txn t ∈ s.procs ∧
      [98] ∈ t.prewritten ∧ [98] ≠ t.primary ∧ s.db.Committed t.primary t.startTs ∧
      s.db.RolledBack [98] t.startTs := by
  obtain ⟨s, hs, t, ht, hfacts⟩ : ∃ s, Machine.run Sys.step {} replyLost = some s ∧
      ∃ t, s.first? = some t ∧ [98] ∈ t.prewritten ∧ [98] ≠ t.primary ∧
        s.db.Committed t.primary t.startTs ∧ s.db.RolledBack [98] t.startTs := by decide +kernel
  exact ⟨s, t, hs, Sys.mem_of_first? ht, hfacts⟩

end Flotilla.Txn
