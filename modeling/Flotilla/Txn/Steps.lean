/-
  Txn.Steps — what lasts from one state to the next.

  `Later s s'` is all that the invariant needs of the past: records, requests,
  replies and transactions stay.  Everything `Inv` says is kept along it, so a
  step only has to answer for what it adds: a process (`Inv.spawn`), a process
  that goes on (`Inv.install`), a reply (`Inv.reply`), an applied command
  (`Inv.serve_command`).
-/
import Flotilla.Lib.Positions
import Flotilla.Txn.Invariant

namespace Flotilla.Txn

/-! ## What lasts. -/

/-- What a step leaves of the past. -/
structure Later (s s' : Sys) : Prop where
  clock : s.clock ≤ s'.clock
  length : s.log.length ≤ s'.log.length
  past : ∀ v ≤ s.log.length, s'.dbAt v = s.dbAt v
  grows : ∀ k, ∀ w ∈ s.db.writes k, w ∈ s'.db.writes k
  sent : ∀ {i : Nat} {c : Call}, s.sent[i]? = some c → s'.sent[i]? = some c
  replies : ∀ {r : Reply}, r ∈ s.replies → r ∈ s'.replies
  txns : ∀ {n : Nat} {t : Txn}, s.HasTxn n t → ∃ t', s'.HasTxn n t' ∧ t.Keeps t'

namespace Later

variable {s s' : Sys} {key : Key} {ts c n : Nat}

section

variable (hl : Later s s')

include hl

theorem committed (h : s.db.Committed key ts) : s'.db.Committed key ts := by
  obtain ⟨w, hw, hrest⟩ := h
  exact ⟨w, hl.grows key w hw, hrest⟩

theorem committedAt (h : s.db.CommittedAt key ts c) : s'.db.CommittedAt key ts c := by
  obtain ⟨w, hw, hrest⟩ := h
  exact ⟨w, hl.grows key w hw, hrest⟩

theorem rolledBack (h : s.db.RolledBack key ts) : s'.db.RolledBack key ts := by
  obtain ⟨w, hw, hrest⟩ := h
  exact ⟨w, hl.grows key w hw, hrest⟩

theorem isTxn {t : Txn} (h : s.IsTxn ts t) : ∃ t', s'.IsTxn ts t' ∧ t.Keeps t' := by
  obtain ⟨hne, rfl, n, hn⟩ := h
  obtain ⟨t', hn', hk⟩ := hl.txns hn
  exact ⟨t', ⟨hne, hk.startTs hne, n, hn'⟩, hk⟩

theorem isPrimary (h : s.IsPrimary key ts) : s'.IsPrimary key ts := by
  obtain ⟨t, ht, rfl⟩ := h
  obtain ⟨t', ht', hk⟩ := hl.isTxn ht
  exact ⟨t', ht', hk.primary⟩

theorem justified {cmd : Command} (h : s.Justified cmd) : s'.Justified cmd := by
  cases cmd with
  | prewrite _ _ _ ts primary _ => exact hl.isPrimary h
  | commit key ts c =>
    obtain ⟨t, ht, hc, hne, hwhy⟩ := h
    obtain ⟨t', ht', hk⟩ := hl.isTxn ht
    refine ⟨t', ht', (hk.commitTs (hc ▸ hne)).trans hc, hne, ?_⟩
    rw [hk.primary]
    exact hwhy.imp id hl.committed
  | rollback key ts =>
    obtain ⟨t, ht, hwhy⟩ := h
    obtain ⟨t', ht', hk⟩ := hl.isTxn ht
    refine ⟨t', ht', ?_⟩
    rw [hk.primary]
    exact hwhy.imp id (Or.imp hl.rolledBack hk.dead)

theorem requestOk {req : Request} (h : s.RequestOk req) : s'.RequestOk req := by
  cases req with
  | txnTs => trivial
  | command cmd => exact hl.justified h
  | txnResolve key ts => exact hl.isPrimary h

theorem drewFor (h : s.DrewFor n ts) : s'.DrewFor n ts := by
  obtain ⟨r, hr, hts, c, hc, hrest⟩ := h
  exact ⟨r, hl.replies hr, hts, c, hl.sent hc, hrest⟩

theorem answerOk {call : Call} {r : Reply} (htime : r.time ≤ s.log.length)
    (h : s.AnswerOk call r) : s'.AnswerOk call r := by
  unfold Sys.AnswerOk at h ⊢
  split at h
  · exact ⟨h.1, h.2.trans hl.clock⟩
  · trivial
  · exact fun hok => hl.committed (h hok)
  · refine ⟨fun hok => hl.rolledBack (h.1 hok), fun hc => ?_⟩
    rw [hl.past r.time htime]
    exact h.2 hc
  · exact fun hok => ⟨fun hne => hl.committedAt ((h hok).1 hne),
      fun hz => hl.rolledBack ((h hok).2 hz)⟩

theorem replyOk {r : Reply} (h : s.ReplyOk r) : s'.ReplyOk r := by
  obtain ⟨call, hcall, hans⟩ := h.answer
  exact ⟨h.time.trans hl.length, h.plain, call, hl.sent hcall, hl.answerOk h.time hans⟩

theorem phaseOk {t : Txn} (h : PhaseOk s n t) : PhaseOk s' n t := by
  unfold PhaseOk at h ⊢
  split at h
  · obtain ⟨hs, hc, call, hcall, hrest⟩ := h
    exact ⟨hs, hc, call, hl.sent hcall, hrest⟩
  · exact h
  · obtain ⟨hs, hc, hp, call, hcall, hrest⟩ := h
    exact ⟨hs, hc, hl.isPrimary hp, call, hl.sent hcall, hrest⟩
  · exact h
  · obtain ⟨hs, hc, call, hcall, hrest⟩ := h
    exact ⟨hs, hc, call, hl.sent hcall, hrest⟩
  · obtain ⟨hs, hc, call, hcall, hrest⟩ := h
    exact ⟨hs, hc, call, hl.sent hcall, hrest⟩
  · exact ⟨h.1, h.2.1, hl.committed h.2.2⟩
  · exact h
  · trivial

theorem procOk {p : Proc} (h : ProcOk s n p) : ProcOk s' n p := by
  cases p with
  | txn t =>
    have h : TxnOk s n t := h
    refine ⟨fun hs => ?_, fun hc => ?_, hl.phaseOk h.phase⟩
    · obtain ⟨hd, hle⟩ := h.start hs
      exact ⟨hl.drewFor hd, hle.trans hl.clock⟩
    · obtain ⟨hs, hlt, hd⟩ := h.commit hc
      exact ⟨hs, hlt, hl.drewFor hd⟩
  | reader r =>
    have h : ReaderOk s r := h
    refine ⟨hl.isPrimary h.primary, fun hp => ?_⟩
    obtain ⟨call, hcall, hreq⟩ := h.asked hp
    exact ⟨call, hl.sent hcall, hreq⟩
  | handler d =>
    have h : HandlerOk s d := h
    refine ⟨hl.isPrimary h.primary, ?_, h.since.trans hl.length, fun hp => ?_, fun hp => ?_⟩
    · obtain ⟨call, hcall, hreq⟩ := h.client
      exact ⟨call, hl.sent hcall, hreq⟩
    · obtain ⟨call, hcall, hreq⟩ := h.proposed hp
      exact ⟨call, hl.sent hcall, hreq⟩
    · rw [hl.past d.since h.since]
      exact h.met hp

end

end Later

/-! ## A step that adds. -/

variable {s s' : Sys}

/-- The invariant of a later state, from what is new in it. -/
theorem Inv.extend (h : Inv s) (hl : Later s s')
    (hcalls : ∀ c ∈ s'.sent, c ∈ s.sent ∨ (c.clock ≤ s'.clock ∧ s'.RequestOk c.req))
    (happlied : ∀ cmd ∈ s'.log, cmd ∈ s.log ∨ ∃ c ∈ s'.sent, c.req = .command cmd)
    (hreplies : ∀ r ∈ s'.replies, r ∈ s.replies ∨ (s'.ReplyOk r ∧
      ∀ c, s'.sent[r.call]? = some c → c.req = .txnTs → s.clock < r.resp.ts))
    (hone : ∀ r ∈ s'.replies, ∀ r' ∈ s'.replies, r ∉ s.replies → r' ∉ s.replies → r = r')
    (hprocs : ∀ n p, s'.procs[n]? = some p → s.procs[n]? = some p ∨ ProcOk s' n p) : Inv s' := by
  -- a timestamp among the old replies was drawn before
  have hold : ∀ r ∈ s.replies, ∀ c, s'.sent[r.call]? = some c → c.req = .txnTs →
      r.resp.ts ≤ s.clock ∧ s.sent[r.call]? = some c := by
    intro r hr c hc hreq
    obtain ⟨c₀, hc₀, hans⟩ := (h.replies r hr).answer
    have heq := (hl.sent hc₀).symm.trans hc
    cases heq
    unfold Sys.AnswerOk at hans
    rw [hreq] at hans
    exact ⟨hans.2, hc₀⟩
  refine ⟨fun c hc => ?_, fun cmd hcmd => ?_, fun r hr => ?_, ?_, fun n p hp => ?_⟩
  · rcases hcalls c hc with hc | hok
    · obtain ⟨hle, hok⟩ := h.calls c hc
      exact ⟨hle.trans hl.clock, hl.requestOk hok⟩
    · exact hok
  · rcases happlied cmd hcmd with hcmd | hsent
    · obtain ⟨c, hc, hreq⟩ := h.applied cmd hcmd
      obtain ⟨i, hi⟩ := mem_iff_getElem?.mp hc
      exact ⟨c, mem_iff_getElem?.mpr ⟨i, hl.sent hi⟩, hreq⟩
    · exact hsent
  · rcases hreplies r hr with hr | hok
    · exact hl.replyOk (h.replies r hr)
    · exact hok.1
  · intro r hr r' hr' c c' hc hc' hreq hreq' hts
    by_cases hin : r ∈ s.replies
    · obtain ⟨hle, hcall⟩ := hold r hin c hc hreq
      by_cases hin' : r' ∈ s.replies
      · exact h.unique r hin r' hin' c c' hcall (hold r' hin' c' hc' hreq').2 hreq hreq' hts
      · rcases hreplies r' hr' with hr' | ⟨_, hnew⟩
        · exact absurd hr' hin'
        · have := hnew c' hc' hreq'
          omega
    · rcases hreplies r hr with hr | ⟨_, hnew⟩
      · exact absurd hr hin
      · have hlt := hnew c hc hreq
        by_cases hin' : r' ∈ s.replies
        · have := (hold r' hin' c' hc' hreq').1
          omega
        · rw [hone r (by assumption) r' hr' hin hin']
  · rcases hprocs n p hp with hp | hok
    · exact hl.procOk (h.procs n p hp)
    · exact hok

/-! ## Messages, and nothing applied. -/

theorem Later.of_same_log (hclock : s.clock ≤ s'.clock) (hlog : s'.log = s.log)
    (hsent : s.sent <+: s'.sent) (hreplies : s.replies <+: s'.replies)
    (htxns : ∀ {n : Nat} {t : Txn}, s.HasTxn n t → ∃ t', s'.HasTxn n t' ∧ t.Keeps t') :
    Later s s' where
  clock := hclock
  length := Nat.le_of_eq (congrArg List.length hlog.symm)
  past := fun v _ => by
    unfold Sys.dbAt
    rw [hlog]
  grows := fun k w hw => by
    unfold Sys.db at hw ⊢
    rw [hlog]
    exact hw
  sent := getElem?_of_isPrefix hsent
  replies := fun hr => hreplies.subset hr
  txns := htxns

theorem txns_of_isPrefix (h : s.procs <+: s'.procs) {n : Nat} {t : Txn} (ht : s.HasTxn n t) :
    ∃ t', s'.HasTxn n t' ∧ t.Keeps t' :=
  ⟨t, getElem?_of_isPrefix h ht, .refl t⟩

section

variable {s : Sys}

theorem Later.spawn (s : Sys) (p : Nat → Proc) (req : Request) : Later s (s.spawn p req) :=
  .of_same_log le_rfl rfl (prefix_append _ _) (prefix_rfl) (txns_of_isPrefix (prefix_append _ _))

variable {p : Nat → Proc} {n i : Nat} {q : Proc} {r : Reply} {c : Call}

theorem Inv.spawn (h : Inv s) {req : Request} (hreq : (s.spawn p req).RequestOk req)
    (hp : ProcOk (s.spawn p req) s.procs.length (p s.sent.length)) : Inv (s.spawn p req) := by
  refine h.extend (.spawn s p req) (fun c hc => ?_) (fun cmd hc => .inl hc)
    (fun r hr => .inl hr) (fun r hr _ _ hn => absurd hr hn) (fun n q hq => ?_)
  · rcases mem_append.mp hc with hc | hc
    · exact .inl hc
    · obtain rfl := mem_singleton.mp hc
      exact .inr ⟨le_rfl, hreq⟩
  · rcases getElem?_concat_cases hq with hq | ⟨rfl, rfl⟩
    · exact .inl hq
    · exact .inr hp

theorem Sys.install_proc (hn : s.procs[n]? = some q) (p : Nat → Proc) (req : Option Request) :
    (s.install n p req).procs[n]? = some (p s.sent.length) := by
  obtain ⟨hlt, _⟩ := getElem?_eq_some_iff.mp hn
  exact List.getElem?_set_self hlt

theorem Later.install (hn : s.procs[n]? = some q) {req : Option Request}
    (hkeeps : ∀ t, q = .txn t → ∃ t', p s.sent.length = .txn t' ∧ t.Keeps t') :
    Later s (s.install n p req) := by
  refine .of_same_log le_rfl rfl (prefix_append _ _) prefix_rfl ?_
  intro m t ht
  by_cases hm : m = n
  · subst hm
    obtain ⟨t', hp, hk⟩ := hkeeps t (Option.some.inj (hn.symm.trans ht))
    refine ⟨t', ?_, hk⟩
    unfold Sys.HasTxn
    rw [Sys.install_proc hn, hp]
  · refine ⟨t, ?_, .refl t⟩
    unfold Sys.HasTxn Sys.install
    rw [List.getElem?_set_ne (fun heq => hm heq.symm)]
    exact ht

theorem Sys.install_sent (n : Nat) (p : Nat → Proc) (req : Request) :
    (s.install n p (some req)).sent[s.sent.length]? = some ⟨n, req, s.clock⟩ :=
  List.getElem?_concat_length

/-- A process goes on, and may send a request. -/
theorem Inv.install (h : Inv s) (hn : s.procs[n]? = some q) {req : Option Request}
    (hkeeps : ∀ t, q = .txn t → ∃ t', p s.sent.length = .txn t' ∧ t.Keeps t')
    (hreq : ∀ r, req = some r → (s.install n p req).RequestOk r)
    (hp : ProcOk (s.install n p req) n (p s.sent.length)) : Inv (s.install n p req) := by
  refine h.extend (.install hn hkeeps) (fun c hc => ?_) (fun cmd hc => .inl hc)
    (fun r hr => .inl hr) (fun r hr _ _ hne => absurd hr hne) (fun m q' hq' => ?_)
  · rcases mem_append.mp hc with hc | hc
    · exact .inl hc
    · right
      cases req with
      | none => cases hc
      | some r =>
        obtain rfl := mem_singleton.mp hc
        exact ⟨le_rfl, hreq r rfl⟩
  · by_cases hm : m = n
    · subst hm
      rw [Sys.install_proc hn] at hq'
      cases hq'
      exact .inr hp
    · left
      unfold Sys.install at hq'
      rw [List.getElem?_set_ne (fun heq => hm heq.symm)] at hq'
      exact hq'

/-! ## Serving a request. -/

theorem Inv.reply (h : Inv s) {s' : Sys} (hl : Later s s')
    (hreplies : s'.replies = s.replies ++ [r]) (hsent : s'.sent = s.sent)
    (hprocs : s'.procs = s.procs)
    (happlied : ∀ cmd ∈ s'.log, cmd ∈ s.log ∨ ∃ c ∈ s'.sent, c.req = .command cmd)
    (hok : s'.ReplyOk r)
    (hnew : ∀ c, s'.sent[r.call]? = some c → c.req = .txnTs → s.clock < r.resp.ts) : Inv s' := by
  have hcases : ∀ r' ∈ s'.replies, r' ∈ s.replies ∨ r' = r := fun r' hr' => by
    rw [hreplies] at hr'
    exact (mem_append.mp hr').imp id mem_singleton.mp
  refine h.extend hl (fun c hc => .inl (hsent ▸ hc)) happlied (fun r' hr' => ?_)
    (fun r₁ h₁ r₂ h₂ hn₁ hn₂ => ?_) (fun n p hp => .inl (hprocs ▸ hp))
  · rcases hcases r' hr' with hr' | rfl
    · exact .inl hr'
    · exact .inr ⟨hok, hnew⟩
  · rw [(hcases r₁ h₁).resolve_left hn₁, (hcases r₂ h₂).resolve_left hn₂]

theorem Inv.serve_ts (h : Inv s) (hc : s.sent[i]? = some c) (hreq : c.req = .txnTs) :
    Inv (s.serve i .txnTs) := by
  have hclock := (h.calls c (mem_of_getElem? hc)).1
  refine h.reply ?_ rfl rfl rfl (fun cmd hcmd => .inl hcmd) ⟨le_rfl, rfl, c, hc, ?_⟩
    (fun _ _ _ => Nat.lt_succ_self _)
  · exact .of_same_log (Nat.le_succ _) rfl prefix_rfl (prefix_append _ _)
      (fun ht => ⟨_, ht, .refl _⟩)
  · unfold Sys.AnswerOk
    rw [hreq]
    exact ⟨Nat.lt_succ_of_le hclock, le_rfl⟩

theorem Sys.db_serveCommand (i : Nat) (cmd : Command) :
    (s.serveCommand i cmd).db = s.db.exec cmd := by
  unfold Sys.db Sys.serveCommand
  rw [foldl_append]
  rfl

theorem Inv.storeOk_db (h : Inv s) : StoreOk s.schedule s.db := by
  rw [← s.dbAt_length]
  exact h.storeOk _

/-- A command that was requested is applied, at any later time. -/
theorem Inv.serve_command (h : Inv s) {cmd : Command} (hc : s.sent[i]? = some c)
    (hreq : c.req = .command cmd) : Inv (s.serveCommand i cmd) := by
  have hmem := mem_of_getElem? hc
  have hj : s.Justified cmd := by
    have := (h.calls c hmem).2
    rw [hreq] at this
    exact this
  have hdb := s.db_serveCommand i cmd
  refine h.reply ?_ rfl rfl rfl (fun cmd' hcmd => ?_) ⟨?_, rfl, c, hc, ?_⟩ (fun c' hc' hts => ?_)
  · refine ⟨le_rfl, ?_, fun v hv => ?_, fun k w hw => ?_, id, fun hr => ?_,
      fun ht => ⟨_, ht, .refl _⟩⟩
    · show s.log.length ≤ (s.log ++ [cmd]).length
      rw [length_append]
      omega
    · unfold Sys.dbAt Sys.serveCommand
      rw [take_append_of_le_length hv]
    · rw [hdb]
      exact (h.storeOk_db.exec_keeps h.owned hj.scheduled).2 k w hw
    · exact mem_append_left _ hr
  · rcases mem_append.mp hcmd with hcmd | hcmd
    · exact .inl hcmd
    · obtain rfl := mem_singleton.mp hcmd
      exact .inr ⟨c, hmem, hreq⟩
  · show s.log.length + 1 ≤ (s.log ++ [cmd]).length
    simp
  · unfold Sys.AnswerOk
    rw [hreq]
    -- the reply carries the status of the command that has just been applied
    have hnow : (s.serveCommand i cmd).dbAt (s.log.length + 1) = s.db.exec cmd := by
      rw [← hdb, ← Sys.dbAt_length]
      unfold Sys.serveCommand
      simp
    cases cmd with
    | prewrite _ _ _ _ _ _ => trivial
    | commit key ts commitTs =>
      intro hok
      rw [hdb]
      exact h.storeOk_db.committed_of_commit_ok h.owned (of_decide_eq_true hok)
    | rollback key ts =>
      obtain ⟨hback, hmet⟩ := h.storeOk_db.of_rollback_status h.owned key ts
      refine ⟨fun hok => ?_, fun hcf => ?_⟩
      · rw [hdb]
        exact hback (of_decide_eq_true hok)
      · show ((s.serveCommand i (.rollback key ts)).dbAt (s.log.length + 1)).Committed key ts
        rw [hnow]
        exact hmet (of_decide_eq_true hcf)
  · have heq := Option.some.inj (hc.symm.trans hc')
    rw [← heq, hreq] at hts
    cases hts

theorem Inv.serve_resolve (h : Inv s) {key : Key} {ts : Nat} (hc : s.sent[i]? = some c)
    (hreq : c.req = .txnResolve key ts) :
    Inv (s.serve i (.txnResolve key ts)) := by
  have hprim : s.IsPrimary key ts := by
    have := (h.calls c (mem_of_getElem? hc)).2
    rw [hreq] at this
    exact this
  have hl : Later s (s.serve i (.txnResolve key ts)) :=
    .of_same_log le_rfl rfl prefix_rfl prefix_rfl (txns_of_isPrefix (prefix_append _ _))
  refine h.extend hl (fun _ hc' => .inl hc') (fun _ hcmd => .inl hcmd) (fun _ hr => .inl hr)
    (fun r hr _ _ hn => absurd hr hn) (fun n p hp => ?_)
  rcases getElem?_concat_cases hp with hp | ⟨rfl, rfl⟩
  · exact .inl hp
  · refine .inr ⟨hl.isPrimary hprim, ⟨c, hc, hreq⟩, le_rfl, fun hp => ?_, fun hp => ?_⟩
    · rcases hp with hp | hp <;> cases hp
    · cases hp

/-! ## What a process learns from a reply. -/

theorem Sys.respond_cases (s : Sys) (r : Reply) (view : Nat) :
    s.respond r view = r.resp ∨ ∃ key l, (s.dbAt view).lock key = some l ∧ s.respond r view =
      { r.resp with lockTs := l.startTs, lockPrimary := l.primary, lockKey := key } := by
  unfold Sys.respond
  split
  · rename_i key _ _ _ _ _ _
    split
    · split
      · rename_i l hlock
        exact .inr ⟨key, l, hlock, rfl⟩
      · exact .inl rfl
    · exact .inl rfl
  · exact .inl rfl

/-- What the caller of `call` may conclude from `r`. -/
structure Learns (s : Sys) (call : Nat) (r : Reply) : Prop where
  time : r.time ≤ s.log.length
  source : ∃ r₀ ∈ s.replies, r₀.call = call ∧ r₀.resp.ts = r.resp.ts
  answer : ∀ c, s.sent[call]? = some c → s.AnswerOk c r
  lock : r.resp.lockTs ≠ 0 → s.IsPrimary r.resp.lockPrimary r.resp.lockTs

/-- What a process may conclude from a reply. -/
theorem Inv.learns (h : Inv s) {call : Nat} {choice : Choice}
    (hres : s.result call choice = some (some r)) : Learns s call r := by
  cases choice with
  | fail | look _ _ => cases hres
  | reply j view =>
    unfold Sys.result at hres
    dsimp only at hres
    split at hres
    · rename_i r₀ hr₀
      have hmem := mem_of_getElem? hr₀
      have hok := h.replies r₀ hmem
      split at hres
      · rename_i hguard
        obtain ⟨rfl, htime, hview⟩ := hguard
        cases Option.some.inj hres
        obtain ⟨c₀, hc₀, hans⟩ := hok.answer
        rcases s.respond_cases r₀ view with heq | ⟨key, l, hlock, heq⟩
        · rw [heq]
          refine ⟨hok.time, ⟨r₀, hmem, rfl, rfl⟩, fun c hc => ?_, fun hne => absurd hok.plain hne⟩
          cases hc₀.symm.trans hc
          exact hans
        · rw [heq]
          refine ⟨hok.time, ⟨r₀, hmem, rfl, rfl⟩, fun c hc => ?_, fun _ => h.lock_primary hlock⟩
          cases hc₀.symm.trans hc
          exact hans
      · cases hres
    · cases hres

/-- Who resolves a lock does what the primary's records say. -/
theorem Inv.fix_justified (h : Inv s) {lock : BlockingLock} {call : Nat}
    (hprim : s.IsPrimary lock.primary lock.ts) (hc : s.sent[call]? = some c)
    (hreq : c.req = lock.resolve) (hr : Learns s call r) (hok : r.resp.status.isOk = true) :
    s.RequestOk (lock.fix r.resp) := by
  obtain ⟨t, ht, hp⟩ := hprim
  have hans := hr.answer c hc
  unfold Sys.AnswerOk at hans
  rw [hreq] at hans
  obtain ⟨hfwd, hback⟩ := hans hok
  unfold BlockingLock.fix
  by_cases hz : r.resp.ts = 0
  · rw [if_neg (not_not.mpr hz)]
    refine ⟨t, ht, .inr (.inl ?_)⟩
    rw [hp]
    exact hback hz
  · rw [if_pos hz]
    obtain ⟨w, hw, hslot, hs, hk⟩ := hfwd hz
    have hcommitted : s.db.Committed lock.primary lock.ts := ⟨w, hw, hs, hk⟩
    -- the primary's own commit carries the timestamp
    have hcts : t.commitTs = r.resp.ts := by
      rcases mem_writes_foldl hw with hw | ⟨hk', _⟩ | ⟨_, hmem⟩
      · cases hw
      · exact absurd hk' hk
      · rw [hs, hslot] at hmem
        obtain ⟨t', ht', hc', _⟩ := h.justified hmem
        rw [h.isTxn_unique ht ht']
        exact hc'
    refine ⟨t, ht, hcts, hz, .inr ?_⟩
    rw [hp]
    exact hcommitted

end

/-- The record that the answer to `TXN_RESOLVE(key, ts)` rests on. -/
def VerdictOk (db : Store) (key : Key) (ts : Nat) (resp : Response) : Prop :=
  resp.status.isOk = true →
    (resp.ts ≠ 0 → db.CommittedAt key ts resp.ts) ∧ (resp.ts = 0 → db.RolledBack key ts)

namespace Handler

/-- What a handler may do next: it goes on with its key and timestamp, and proposes their rollback,
waits for more of the log, or answers by a record. -/
structure Move (log : List Command) (d : Handler) (next : HandlerNext) : Prop where
  client : next.handler.client = d.client
  key : next.handler.key = d.key
  ts : next.handler.ts = d.ts
  since : next.handler.since ≤ log.length
  req : next.req = some d.rollback ∨
    (next.req = none ∧ next.handler.phase ≠ .expiring ∧ next.handler.phase ≠ .poisoning)
  met : next.handler.phase = .rereading →
    (Store.after (log.take next.handler.since)).Committed d.key d.ts
  resp : ∀ resp, next.resp = some resp →
    resp.lockTs = 0 ∧ VerdictOk (Store.after log) d.key d.ts resp

namespace Move

variable {log : List Command} {d : Handler}

theorem goOn {since : Nat} (hsince : since ≤ log.length) {phase : HandlerPhase}
    (hphase : phase ≠ .expiring ∧ phase ≠ .poisoning)
    (hmet : phase = .rereading → (Store.after (log.take since)).Committed d.key d.ts) :
    d.Move log ⟨{ d with phase := phase, since := since }, none, none⟩ :=
  ⟨rfl, rfl, rfl, hsince, .inr ⟨rfl, hphase⟩, hmet, nofun⟩

theorem propose (hsince : d.since ≤ log.length) {phase : HandlerPhase}
    (hphase : phase ≠ .rereading) :
    d.Move log ⟨{ d with phase := phase }, some d.rollback, none⟩ :=
  ⟨rfl, rfl, rfl, hsince, .inl rfl, fun hp => absurd hp hphase, nofun⟩

theorem answers (hsince : d.since ≤ log.length) {resp : Response} (hplain : resp.lockTs = 0)
    (hok : VerdictOk (Store.after log) d.key d.ts resp) :
    d.Move log ⟨{ d with phase := .done }, none, some resp⟩ := by
  refine ⟨rfl, rfl, rfl, hsince, .inr ⟨rfl, by simp, by simp⟩, nofun, fun resp' hr => ?_⟩
  rw [← Option.some.inj hr]
  exact ⟨hplain, hok⟩

/-- The handler reads its replica, which has applied the first `v` commands to the key. -/
theorem looked {σ : Schedule} {db : Store} {v : Nat} (alive : Bool) (hσ : σ.Owned)
    (hlog : ∀ cmd ∈ log, cmd.Scheduled σ) (hsince : d.since ≤ log.length)
    (hmet : d.phase = .rereading → (Store.after (log.take d.since)).Committed d.key d.ts)
    (hv : d.since ≤ v) (hwrites : db.writes d.key = (Store.after (log.take v)).writes d.key) :
    d.Move log (d.looked db alive) := by
  have hpast : ∀ cmd ∈ log.take v, cmd.Scheduled σ := fun cmd hc => hlog cmd (mem_of_mem_take hc)
  have hok : StoreOk σ (Store.after (log.take v)) := (foldl_exec_ok hσ (.empty σ) hpast).1
  have hgrows : ∀ w ∈ (Store.after (log.take v)).writes d.key,
      w ∈ (Store.after log).writes d.key :=
    fun w hw => mem_writes_after hσ (List.take_prefix v log) hlog hw
  -- what the walk reports of the replica holds of the records
  have hcommitted : (findTxnOutcome d.ts ((Store.after (log.take v)).writes d.key)).1 ≠ 0 →
      (Store.after log).CommittedAt d.key d.ts
        (findTxnOutcome d.ts ((Store.after (log.take v)).writes d.key)).1 := by
    intro hne
    obtain ⟨w, hw, hrest⟩ := hok.findTxnOutcome_committedAt hσ hne
    exact ⟨w, hgrows w hw, hrest⟩
  unfold Handler.looked
  rw [hwrites]
  split
  · split
    · split
      · exact answers hsince rfl nofun
      · exact propose hsince (by simp)
    · exact goOn hsince (by simp) (by simp)
  · dsimp only
    split
    · exact propose hsince (by simp)
    · rename_i hdecided
      refine answers hsince rfl (fun _ => ⟨hcommitted, fun hz => ?_⟩)
      have hmarked : (findTxnOutcome d.ts ((Store.after (log.take v)).writes d.key)).2 = true := by
        by_contra hno
        exact hdecided ⟨hz, by simpa using hno⟩
      obtain ⟨w, hw, hrest⟩ := hok.findTxnOutcome_rolledBack hσ hmarked
      exact ⟨w, hgrows w hw, hrest⟩
  · rename_i hphase
    -- the poisoning met a commit, and the replica has applied it
    refine answers hsince rfl (fun _ => ⟨hcommitted, fun hz => ?_⟩)
    obtain ⟨w, hw, hrest⟩ := hmet hphase
    have happlied : w ∈ (Store.after (log.take v)).writes d.key :=
      mem_writes_after hσ (List.take_prefix_take_left hv) hpast hw
    exact absurd hz ((hok.findTxnOutcome_committed hσ).mpr ⟨w, happlied, hrest⟩)
  · exact goOn hsince (by simp) (by simp)

/-- The rollback the handler proposed was applied, or failed. -/
theorem proposed {reply : Option Reply} (hsince : d.since ≤ log.length)
    (hmeans : ∀ r, reply = some r → r.time ≤ log.length ∧
      (r.resp.status.isOk = true → (Store.after log).RolledBack d.key d.ts) ∧
      (r.resp.status.isConflict = true →
        (Store.after (log.take r.time)).Committed d.key d.ts)) :
    d.Move log (d.proposed reply) := by
  unfold Handler.proposed
  split
  · rename_i r _
    split
    · exact goOn (hmeans r rfl).1 (by simp) (by simp)
    · rename_i hbad
      exact answers hsince rfl (fun hok => absurd (.inl hok) hbad)
  · rename_i r _
    split
    · rename_i hconflict
      exact goOn (hmeans r rfl).1 (by simp) (fun _ => (hmeans r rfl).2.2 hconflict)
    · split
      · rename_i hok
        exact answers hsince rfl
          (fun _ => ⟨fun hne => absurd rfl hne, fun _ => (hmeans r rfl).2.1 hok⟩)
      · rename_i hbad
        exact answers hsince rfl (fun hok => absurd hok hbad)
  · exact goOn hsince (by simp) (by simp)

/-- Waiting for its proposal changes nothing else of the handler. -/
theorem waiting {next : HandlerNext} (h : d.Move log next) (call : Nat) :
    (next.waiting call).client = d.client ∧ (next.waiting call).key = d.key ∧
      (next.waiting call).ts = d.ts ∧ (next.waiting call).since = next.handler.since ∧
      (next.waiting call).phase = next.handler.phase := by
  unfold HandlerNext.waiting
  split <;> exact ⟨h.client, h.key, h.ts, rfl, rfl⟩

end Move

end Handler

end Flotilla.Txn
