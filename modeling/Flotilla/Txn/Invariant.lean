/-
  Txn.Invariant — why every command under way may be applied.

  The primary key decides.  A commit of another key is only sent once the primary
  is committed; a rollback of another key is only sent once the primary is rolled
  back, or by a coordinator that gave up before it drew a commit timestamp.
  `Sys.Justified` says this of a command, `Inv` of everything a state holds:
  requests, replies, and what each process knows in its phase.
-/
import Flotilla.Txn.Percolator
import Flotilla.Txn.Protocol

namespace Flotilla.Txn

/-! ## Transactions of a state. -/

/-- Gave up before a commit timestamp was drawn. -/
def Txn.Dead (t : Txn) : Prop :=
  t.commitTs = 0 ∧ match t.phase with
    | .aborting _ => True
    | .done => True
    | _ => False

/-- What stays of a transaction when its process goes on. -/
structure Txn.Keeps (t t' : Txn) : Prop where
  mutations : t'.mutations = t.mutations
  startTs : t.startTs ≠ 0 → t'.startTs = t.startTs
  commitTs : t.commitTs ≠ 0 → t'.commitTs = t.commitTs
  dead : t.Dead → t'.Dead

theorem Txn.Keeps.refl (t : Txn) : t.Keeps t := ⟨rfl, fun _ => rfl, fun _ => rfl, id⟩

theorem Txn.Keeps.primary {t t' : Txn} (h : t.Keeps t') : t'.primary = t.primary := by
  unfold Txn.primary
  rw [h.mutations]

namespace Sys

/-- `t` runs as process `n`. -/
def HasTxn (s : Sys) (n : Nat) (t : Txn) : Prop := s.procs[n]? = some (.txn t)

/-- `t` is the transaction that started at `ts`. -/
def IsTxn (s : Sys) (ts : Nat) (t : Txn) : Prop := ts ≠ 0 ∧ t.startTs = ts ∧ ∃ n, s.HasTxn n t

/-- `key` is the primary of the transaction that started at `ts`. -/
def IsPrimary (s : Sys) (key : Key) (ts : Nat) : Prop := ∃ t, s.IsTxn ts t ∧ t.primary = key

/-- The timestamps that the transactions of `s` have drawn. -/
def schedule (s : Sys) : Schedule where
  Start ts := ∃ t, s.IsTxn ts t
  Drawn ts c := ∃ t, s.IsTxn ts t ∧ t.commitTs = c ∧ c ≠ 0

/-- Why a command may be under way. -/
def Justified (s : Sys) : Command → Prop
  | .prewrite _ _ _ ts primary _ => s.IsPrimary primary ts
  | .commit key ts c => ∃ t, s.IsTxn ts t ∧ t.commitTs = c ∧ c ≠ 0 ∧
      (key = t.primary ∨ s.db.Committed t.primary ts)
  | .rollback key ts => ∃ t, s.IsTxn ts t ∧
      (key = t.primary ∨ s.db.RolledBack t.primary ts ∨ t.Dead)

def RequestOk (s : Sys) : Request → Prop
  | .txnTs => True
  | .command cmd => s.Justified cmd
  | .txnResolve key ts => s.IsPrimary key ts

/-- What an answer to the request says about the records. -/
def AnswerOk (s : Sys) (c : Call) (r : Reply) : Prop :=
  match c.req with
  | .txnTs => c.clock < r.resp.ts ∧ r.resp.ts ≤ s.clock
  | .command (.prewrite _ _ _ _ _ _) => True
  | .command (.commit key ts _) => r.resp.status.isOk = true → s.db.Committed key ts
  | .command (.rollback key ts) =>
      (r.resp.status.isOk = true → s.db.RolledBack key ts) ∧
      (r.resp.status.isConflict = true → (s.dbAt r.time).Committed key ts)
  | .txnResolve key ts => r.resp.status.isOk = true →
      (r.resp.ts ≠ 0 → s.db.CommittedAt key ts r.resp.ts) ∧
      (r.resp.ts = 0 → s.db.RolledBack key ts)

structure ReplyOk (s : Sys) (r : Reply) : Prop where
  time : r.time ≤ s.log.length
  plain : r.resp.lockTs = 0
  answer : ∃ c, s.sent[r.call]? = some c ∧ s.AnswerOk c r

/-- `ts` was drawn for a call of process `n`. -/
def DrewFor (s : Sys) (n ts : Nat) : Prop :=
  ∃ r ∈ s.replies, r.resp.ts = ts ∧ ∃ c, s.sent[r.call]? = some c ∧ c.req = .txnTs ∧ c.proc = n

end Sys

/-! ## The invariant. -/

/-- What each phase of a transaction knows. -/
def PhaseOk (s : Sys) (n : Nat) (t : Txn) : Prop :=
  match t.phase with
  | .beginning => t.startTs = 0 ∧ t.commitTs = 0 ∧
      ∃ c, s.sent[t.call]? = some c ∧ c.req = .txnTs ∧ c.proc = n
  | .prewriting todo _ => t.startTs ≠ 0 ∧ t.commitTs = 0 ∧ todo ≠ []
  | .resolving _ _ lock => t.startTs ≠ 0 ∧ t.commitTs = 0 ∧ s.IsPrimary lock.primary lock.ts ∧
      ∃ c, s.sent[t.call]? = some c ∧ c.req = lock.resolve
  | .fixing _ _ _ => t.startTs ≠ 0 ∧ t.commitTs = 0
  | .allocating => t.startTs ≠ 0 ∧ t.commitTs = 0 ∧
      ∃ c, s.sent[t.call]? = some c ∧ c.req = .txnTs ∧ c.proc = n ∧ t.startTs ≤ c.clock
  | .committing => t.startTs ≠ 0 ∧ t.commitTs ≠ 0 ∧
      ∃ c, s.sent[t.call]? = some c ∧ c.req = .command (.commit t.primary t.startTs t.commitTs)
  | .finishing _ => t.startTs ≠ 0 ∧ t.commitTs ≠ 0 ∧ s.db.Committed t.primary t.startTs
  | .aborting _ => t.startTs ≠ 0
  | .done => True

structure TxnOk (s : Sys) (n : Nat) (t : Txn) : Prop where
  start : t.startTs ≠ 0 → s.DrewFor n t.startTs ∧ t.startTs ≤ s.clock
  commit : t.commitTs ≠ 0 →
    t.startTs ≠ 0 ∧ t.startTs < t.commitTs ∧ s.DrewFor n t.commitTs
  phase : PhaseOk s n t

structure ReaderOk (s : Sys) (r : Reader) : Prop where
  primary : s.IsPrimary r.lock.primary r.lock.ts
  asked : (match r.phase with | .resolving => True | _ => False) →
    ∃ c, s.sent[r.call]? = some c ∧ c.req = r.lock.resolve

structure HandlerOk (s : Sys) (h : Handler) : Prop where
  primary : s.IsPrimary h.key h.ts
  client : ∃ c, s.sent[h.client]? = some c ∧ c.req = .txnResolve h.key h.ts
  since : h.since ≤ s.log.length
  proposed : h.phase = .expiring ∨ h.phase = .poisoning →
    ∃ c, s.sent[h.call]? = some c ∧ c.req = h.rollback
  met : h.phase = .rereading → (s.dbAt h.since).Committed h.key h.ts

def ProcOk (s : Sys) (n : Nat) : Proc → Prop
  | .txn t => TxnOk s n t
  | .reader r => ReaderOk s r
  | .handler h => HandlerOk s h

structure Inv (s : Sys) : Prop where
  calls : ∀ c ∈ s.sent, c.clock ≤ s.clock ∧ s.RequestOk c.req
  applied : ∀ cmd ∈ s.log, ∃ c ∈ s.sent, c.req = .command cmd
  replies : ∀ r ∈ s.replies, s.ReplyOk r
  unique : ∀ r ∈ s.replies, ∀ r' ∈ s.replies, ∀ c c', s.sent[r.call]? = some c →
    s.sent[r'.call]? = some c' → c.req = .txnTs → c'.req = .txnTs →
    r.resp.ts = r'.resp.ts → r.call = r'.call
  procs : ∀ n p, s.procs[n]? = some p → ProcOk s n p

/-! ## What the invariant gives. -/

section

variable {s : Sys}

theorem Inv.drew_unique (h : Inv s) {n n' ts : Nat} (hd : s.DrewFor n ts) (hd' : s.DrewFor n' ts) :
    n = n' := by
  obtain ⟨r, hr, hts, c, hc, hreq, hproc⟩ := hd
  obtain ⟨r', hr', hts', c', hc', hreq', hproc'⟩ := hd'
  have hcall := h.unique r hr r' hr' c c' hc hc' hreq hreq' (hts.trans hts'.symm)
  rw [hcall, hc'] at hc
  cases hc
  exact hproc.symm.trans hproc'

theorem Inv.txn (h : Inv s) {n : Nat} {t : Txn} (ht : s.HasTxn n t) : TxnOk s n t := h.procs n _ ht

theorem Inv.isTxn_unique (h : Inv s) {ts : Nat} {t t' : Txn} (ht : s.IsTxn ts t)
    (ht' : s.IsTxn ts t') : t = t' := by
  obtain ⟨hne, hs, n, hn⟩ := ht
  obtain ⟨_, hs', n', hn'⟩ := ht'
  have hd := ((h.txn hn).start (by rw [hs]; exact hne)).1
  have hd' := ((h.txn hn').start (by rw [hs']; exact hne)).1
  rw [hs] at hd
  rw [hs'] at hd'
  obtain rfl := h.drew_unique hd hd'
  have heq := hn.symm.trans hn'
  cases heq
  rfl

theorem Inv.owned (h : Inv s) : s.schedule.Owned where
  start := by
    rintro ts c ⟨t, ht, _⟩
    exact ⟨t, ht⟩
  later := by
    rintro ts c ⟨t, ⟨_, hs, n, hn⟩, hc, hne⟩
    have := ((h.txn hn).commit (by rw [hc]; exact hne)).2.1
    omega
  owner := by
    rintro ts ts' c ⟨t, ⟨_, hs, n, hn⟩, hc, hne⟩ ⟨t', ⟨_, hs', n', hn'⟩, hc', _⟩
    have hd := ((h.txn hn).commit (by rw [hc]; exact hne)).2.2
    have hd' := ((h.txn hn').commit (by rw [hc']; exact hne)).2.2
    rw [hc] at hd
    rw [hc'] at hd'
    obtain rfl := h.drew_unique hd hd'
    have heq := hn.symm.trans hn'
    cases heq
    rw [← hs, ← hs']
  apart := by
    rintro ts c ⟨t, ⟨_, hs, n, hn⟩, hc, hne⟩ ⟨t', _, hs', n', hn'⟩
    obtain ⟨_, hlt, hd⟩ := (h.txn hn).commit (by rw [hc]; exact hne)
    have hd' := ((h.txn hn').start (by rw [hs']; exact hne)).1
    rw [hc] at hd
    rw [hs'] at hd'
    obtain rfl := h.drew_unique hd hd'
    have heq := hn.symm.trans hn'
    cases heq
    omega

theorem Sys.Justified.scheduled {cmd : Command} (h : s.Justified cmd) :
    cmd.Scheduled s.schedule := by
  cases cmd with
  | prewrite _ _ _ ts _ _ =>
    obtain ⟨t, ht, _⟩ := h
    exact ⟨t, ht⟩
  | commit _ ts c =>
    obtain ⟨t, ht, hc, hne, _⟩ := h
    exact ⟨t, ht, hc, hne⟩
  | rollback _ ts =>
    obtain ⟨t, ht, _⟩ := h
    exact ⟨t, ht⟩

theorem Inv.justified (h : Inv s) {cmd : Command} (hcmd : cmd ∈ s.log) : s.Justified cmd := by
  obtain ⟨c, hc, hreq⟩ := h.applied cmd hcmd
  have hok := (h.calls c hc).2
  rw [hreq] at hok
  exact hok

end

/-! ## Records along the log. -/

def Store.after (cmds : List Command) : Store := cmds.foldl Store.exec {}

theorem Store.after_append (pre post : List Command) :
    Store.after (pre ++ post) = post.foldl Store.exec (Store.after pre) :=
  foldl_append

variable {cmds : List Command} {db : Store}

theorem foldl_exec_ok {σ : Schedule} (hσ : σ.Owned) (h : StoreOk σ db)
    (hc : ∀ cmd ∈ cmds, cmd.Scheduled σ) :
    StoreOk σ (cmds.foldl Store.exec db) ∧
      ∀ k, ∀ w ∈ db.writes k, w ∈ (cmds.foldl Store.exec db).writes k := by
  induction cmds generalizing db with
  | nil => exact ⟨h, fun _ _ hw => hw⟩
  | cons cmd cmds ih =>
    obtain ⟨hok, hgrows⟩ := h.exec_keeps hσ (hc cmd mem_cons_self)
    obtain ⟨hok', hgrows'⟩ := ih hok (fun c hc' => hc c (mem_cons_of_mem cmd hc'))
    exact ⟨hok', fun k w hw => hgrows' k w (hgrows k w hw)⟩

theorem mem_writes_after {σ : Schedule} (hσ : σ.Owned) {pre log : List Command}
    (hpre : pre <+: log) (hlog : ∀ cmd ∈ log, cmd.Scheduled σ) {key : Key} {w : Nat × WriteRecord}
    (hw : w ∈ (Store.after pre).writes key) : w ∈ (Store.after log).writes key := by
  obtain ⟨post, rfl⟩ := hpre
  rw [Store.after_append]
  have hok := foldl_exec_ok hσ (.empty σ) (fun cmd hc => hlog cmd (mem_append_left post hc))
  exact (foldl_exec_ok hσ hok.1 (fun cmd hc => hlog cmd (mem_append_right pre hc))).2 key w hw

theorem mem_writes_foldl {k : Key} {w : Nat × WriteRecord}
    (hw : w ∈ (cmds.foldl Store.exec db).writes k) :
    w ∈ db.writes k ∨ (w.2.kind = .rollback ∧ .rollback k w.2.startTs ∈ cmds) ∨
      (w.2.kind ≠ .rollback ∧ .commit k w.2.startTs w.1 ∈ cmds) := by
  induction cmds generalizing db with
  | nil => exact .inl hw
  | cons cmd cmds ih =>
    rcases ih hw with hw | ⟨hk, hmem⟩ | ⟨hk, hmem⟩
    · rcases mem_writes_exec hw with hw | ⟨hk, rfl⟩ | ⟨hk, rfl⟩
      · exact .inl hw
      · exact .inr (.inl ⟨hk, mem_cons_self⟩)
      · exact .inr (.inr ⟨hk, mem_cons_self⟩)
    · exact .inr (.inl ⟨hk, mem_cons_of_mem _ hmem⟩)
    · exact .inr (.inr ⟨hk, mem_cons_of_mem _ hmem⟩)

theorem lock_foldl {k : Key} {l : LockRecord} (hl : (cmds.foldl Store.exec db).lock k = some l) :
    db.lock k = some l ∨
      ∃ value, .prewrite k value l.op l.startTs l.primary l.wallMs ∈ cmds := by
  induction cmds generalizing db with
  | nil => exact .inl hl
  | cons cmd cmds ih =>
    rcases ih hl with hl | ⟨value, hmem⟩
    · rcases lock_exec hl with hl | ⟨value, rfl⟩
      · exact .inl hl
      · exact .inr ⟨value, mem_cons_self⟩
    · exact .inr ⟨value, mem_cons_of_mem _ hmem⟩

section

variable {s : Sys}

theorem Sys.dbAt_length (s : Sys) : s.dbAt s.log.length = s.db := by
  unfold Sys.dbAt Sys.db
  rw [take_length]

theorem Inv.scheduled (h : Inv s) {cmd : Command} (hc : cmd ∈ s.log) :
    cmd.Scheduled s.schedule :=
  (h.justified hc).scheduled

theorem Inv.storeOk (h : Inv s) (v : Nat) : StoreOk s.schedule (s.dbAt v) :=
  (foldl_exec_ok h.owned (.empty _) (fun _ hc => h.scheduled (mem_of_mem_take hc))).1

variable {k : Key} {v : Nat}

theorem Inv.lock_primary (h : Inv s) {l : LockRecord} (hl : (s.dbAt v).lock k = some l) :
    s.IsPrimary l.primary l.startTs := by
  rcases lock_foldl hl with hl | ⟨value, hmem⟩
  · cases hl
  · exact h.justified (mem_of_mem_take hmem)

theorem Inv.atomic (h : Inv s) {n : Nat} {t : Txn} (ht : s.HasTxn n t) (hk : k ≠ t.primary) :
    ¬ (s.db.Committed t.primary t.startTs ∧ s.db.RolledBack k t.startTs) ∧
      ¬ (s.db.RolledBack t.primary t.startTs ∧ s.db.Committed k t.startTs) := by
  have hok : StoreOk s.schedule s.db := by
    rw [← s.dbAt_length]
    exact h.storeOk _
  -- the transaction that a command of this start timestamp belongs to is `t`
  have hself : ∀ t', s.IsTxn t.startTs t' → t' = t := fun t' ht' =>
    h.isTxn_unique ht' ⟨ht'.1, rfl, n, ht⟩
  have hcommit : ∀ key, s.db.Committed key t.startTs →
      t.commitTs ≠ 0 ∧ (key = t.primary ∨ s.db.Committed t.primary t.startTs) := by
    rintro key ⟨w, hw, hs, hkind⟩
    rcases mem_writes_foldl hw with hw | ⟨hkind', _⟩ | ⟨_, hmem⟩
    · cases hw
    · exact absurd hkind' hkind
    · rw [hs] at hmem
      obtain ⟨t', ht', hc, hne, hwhy⟩ := h.justified hmem
      rw [hself t' ht'] at hc hwhy
      exact ⟨by rw [hc]; exact hne, hwhy⟩
  constructor
  · rintro ⟨hc, w, hw, hs, hkind⟩
    rcases mem_writes_foldl hw with hw | ⟨_, hmem⟩ | ⟨hkind', _⟩
    · cases hw
    · rw [hs] at hmem
      obtain ⟨t', ht', hwhy⟩ := h.justified hmem
      rw [hself t' ht'] at hwhy
      rcases hwhy with heq | hr | hdead
      · exact hk heq
      · exact hok.not_both hc hr
      · exact (hcommit t.primary hc).1 hdead.1
    · exact absurd hkind hkind'
  · rintro ⟨hr, hc⟩
    rcases (hcommit k hc).2 with heq | hc'
    · exact hk heq
    · exact hok.not_both hc' hr

end

end Flotilla.Txn
