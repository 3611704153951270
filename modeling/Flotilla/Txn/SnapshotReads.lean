/-
  Txn.SnapshotReads — a read at a drawn timestamp is repeatable.

  The traffic of the protocol, for any number of coordinators and resolvers:
  timestamps come from one counter; a coordinator draws its commit timestamp
  after each key it has asked to prewrite has been prewritten; every request may
  arrive late and any number of times, and anyone may commit a transaction at
  the timestamp drawn for it, or roll it back, on any key.

  The transaction of a commit that a reader could see had by then left a lock or a
  record on each of its keys (`Touched`), and a lock would have stopped the reader.
-/
import Flotilla.Txn.RecordSafety

namespace Flotilla.Txn

/-! ## What a transaction leaves on a key. -/

/-- The transaction holds the lock of the key or has a record on it. -/
def Touched (db : Store) (key : Key) (startTs : Nat) : Prop :=
  (∃ l, db.lock key = some l ∧ l.startTs = startTs) ∨ ∃ w ∈ db.writes key, w.2.startTs = startTs

section

variable {σ : Schedule} {db : Store} {key : Key} {startTs : Nat}

theorem Touched.exec (hσ : σ.Owned) (hok : StoreOk σ db) {cmd : Command} (hc : cmd.Scheduled σ)
    (h : Touched db key startTs) : Touched (db.exec cmd) key startTs := by
  rcases h with ⟨l, hl, hs⟩ | ⟨w, hw, hs⟩
  · cases exec_change db cmd key with
    | same hlock _ _ => exact .inl ⟨l, hlock.trans hl, hs⟩
    | prewrite _ hfree _ _ _ _ _ =>
      rw [hfree] at hl
      cases hl
    | @commit l' c _ hheld _ hwrites _ =>
      right
      rw [hwrites]
      cases hheld.symm.trans hl
      exact ⟨_, self_mem_insertWrite .., hs⟩
    | @rollback s _ _ hlock hwrites _ =>
      by_cases hown : l.startTs = s
      · right
        rw [hwrites]
        split
        · rename_i hmark
          obtain ⟨w, hw, hws, _⟩ := hok.findTxnOutcome_rolledBack hσ hmark
          exact ⟨w, hw, by rw [hws, ← hown, hs]⟩
        · exact ⟨_, self_mem_insertWrite .., hown.symm.trans hs⟩
      · left
        refine ⟨l, ?_, hs⟩
        rw [hlock, hl]
        simp [Option.filter, hown]
  · exact .inr ⟨w, (hok.exec_keeps hσ hc).2 key w hw, hs⟩

theorem touched_of_prewrite_ok {value : Bytes} {op : WriteOp} {primary : Key} {wallMs : Nat}
    (hok : (db.applyPrewrite key value op startTs primary wallMs).1.isOk = true) :
    Touched (db.exec (.prewrite key value op startTs primary wallMs)) key startTs := by
  left
  unfold Store.exec
  simp only [Command.apply]
  unfold Store.applyPrewrite at hok ⊢
  dsimp only at hok ⊢
  split at hok
  · cases hok
  · rename_i hclear
    rw [if_neg hclear]
    split at hok
    · cases hok
    · rename_i hnewer
      rw [if_neg hnewer]
      split at hok
      · rename_i l hl
        split at hok
        · rename_i hs
          exact ⟨l, by rw [if_pos hs]; exact hl, hs⟩
        · cases hok
      · cases op <;> exact ⟨_, update_self .., rfl⟩

theorem data_exec_of_mem (hσ : σ.Owned) (hok : StoreOk σ db) {w : Nat × WriteRecord}
    (hw : w ∈ db.writes key) (cmd : Command) :
    (db.exec cmd).data key w.2.startTs = db.data key w.2.startTs := by
  cases exec_change db cmd key with
  | same _ _ hdata | commit _ _ _ _ hdata => rw [hdata]
  | @prewrite l value _ _ hclear hnewer _ _ hdata =>
    -- the prewrite would have been refused
    have hne : w.2.startTs ≠ l.startTs := by
      intro heq
      have hmet := conflictScan_refuses hσ (hok key).sorted (hok key).slot hw
      rw [heq, hclear] at hmet
      have := hmet.resolve_left (by simp)
      omega
    rw [hdata]
    split
    · rw [update_of_ne hne]
    · rfl
  | @rollback s _ _ _ _ hdata =>
    rw [hdata]
    split
    · rename_i hown
      obtain ⟨l, hl, hs⟩ := (any_eq_true _ _).mp hown
      have hne : w.2.startTs ≠ s := by
        rw [← of_decide_eq_true hs]
        exact ((hok key).locked l hl).2 w hw
      rw [update_of_ne hne]
    · rfl

end

/-! ## Reads that agree. -/

/-- The commits that a read at `ts` may return. -/
def visible (ts : Nat) (w : Nat × WriteRecord) : Bool := w.1 ≤ ts && w.2.kind ≠ .rollback

variable {ts : Nat} {ws : List (Nat × WriteRecord)}

theorem versionScan_dropWhile (hsorted : ws.Pairwise (fun a b => b.1 < a.1)) :
    versionScan (ws.dropWhile (fun w => ts < w.1)) =
      match ws.find? (visible ts) with
      | none => (0, false)
      | some w => if w.2.kind = .delete then (0, true) else (w.2.startTs, false) := by
  induction ws with
  | nil => rfl
  | cons w ws ih =>
    obtain ⟨hhead, htail⟩ := pairwise_cons.mp hsorted
    by_cases hlt : ts < w.1
    · have hnot : visible ts w = false := by simp [visible, Nat.not_le.mpr hlt]
      rw [List.dropWhile_cons_of_pos (by simpa using hlt), List.find?_cons_of_neg (by simp [hnot])]
      exact ih htail
    · rw [dropWhile_cons_of_neg (by simpa using hlt), versionScan_cons]
      have hle : w.1 ≤ ts := Nat.le_of_not_lt hlt
      cases hk : w.2.kind with
      | put | delete => simp [visible, hk, hle]
      | rollback =>
        -- everything below the marker is within the snapshot
        have hrest : ws.dropWhile (fun v => decide (ts < v.1)) = ws := by
          cases ws with
          | nil => rfl
          | cons v ws =>
            have := hhead v mem_cons_self
            exact dropWhile_cons_of_neg (by simp; omega)
        rw [List.find?_cons_of_neg (by simp [visible, hk]), ← ih htail, hrest]

theorem find?_newest {p : Nat × WriteRecord → Bool} (hsorted : ws.Pairwise (fun a b => b.1 < a.1))
    {w : Nat × WriteRecord} (hfind : ws.find? p = some w) :
    ∀ v ∈ ws, p v = true → v ≠ w → v.1 < w.1 := by
  induction ws with
  | nil => cases hfind
  | cons u ws ih =>
    obtain ⟨hhead, htail⟩ := pairwise_cons.mp hsorted
    intro v hv hp hne
    by_cases hu : p u = true
    · rw [List.find?_cons_of_pos hu] at hfind
      cases hfind
      exact hhead v ((mem_cons.mp hv).resolve_left hne)
    · rw [List.find?_cons_of_neg hu] at hfind
      have hv' : v ∈ ws := by
        rcases mem_cons.mp hv with rfl | hv'
        · exact absurd hp hu
        · exact hv'
      exact ih htail hfind v hv' hp hne

theorem find?_eq_of_same {p : Nat × WriteRecord → Bool} {ws' : List (Nat × WriteRecord)}
    (hsorted : ws.Pairwise (fun a b => b.1 < a.1)) (hsorted' : ws'.Pairwise (fun a b => b.1 < a.1))
    (hsame : ∀ w, p w = true → (w ∈ ws ↔ w ∈ ws')) : ws.find? p = ws'.find? p := by
  cases hfind : ws.find? p with
  | none =>
    symm
    rw [List.find?_eq_none] at hfind ⊢
    exact fun w hw hp => hfind w ((hsame w hp).mpr hw) hp
  | some w =>
    have hp := List.find?_some hfind
    have hw := (hsame w hp).mp (List.mem_of_find?_eq_some hfind)
    cases hfind' : ws'.find? p with
    | none => exact absurd hp (List.find?_eq_none.mp hfind' w hw)
    | some w' =>
      have hp' := List.find?_some hfind'
      have hw' := (hsame w' hp').mpr (List.mem_of_find?_eq_some hfind')
      by_contra hne
      have hne : w ≠ w' := fun heq => hne (congrArg some heq)
      have hlt := find?_newest hsorted hfind w' hw' hp' (Ne.symm hne)
      have hlt' := find?_newest hsorted' hfind' w hw hp hne
      omega

theorem unlocked_of_txnGet {db : Store} {key : Key} (h : (db.txnGet key ts).2.locked = none) :
    (db.lock key).filter (fun lock => lock.startTs ≤ ts) = none := by
  unfold Store.txnGet at h
  split at h
  · cases h
  · assumption

theorem txnGet_eq {db db' : Store} {key : Key}
    (hsorted : (db.writes key).Pairwise (fun a b => b.1 < a.1))
    (hsorted' : (db'.writes key).Pairwise (fun a b => b.1 < a.1))
    (hsame : ∀ w, visible ts w = true → (w ∈ db.writes key ↔ w ∈ db'.writes key))
    (hdata : ∀ w ∈ db.writes key, db'.data key w.2.startTs = db.data key w.2.startTs)
    (hfree : (db.txnGet key ts).2.locked = none) (hfree' : (db'.txnGet key ts).2.locked = none) :
    db'.txnGet key ts = db.txnGet key ts := by
  have hfind := find?_eq_of_same hsorted hsorted' hsame
  unfold Store.txnGet
  rw [unlocked_of_txnGet hfree, unlocked_of_txnGet hfree']
  rw [versionScan_dropWhile hsorted, versionScan_dropWhile hsorted', ← hfind]
  cases hw : (db.writes key).find? (visible ts) with
  | none => rfl
  | some w =>
    by_cases hk : w.2.kind = .delete
    · simp only [if_pos hk]
      rfl
    · simp only [if_neg hk, hdata w (List.mem_of_find?_eq_some hw)]

/-! ## The traffic. -/

/-- What a coordinator has done so far. -/
structure Coordinator where
  /-- The keys it has asked to prewrite. -/
  asked : List Key := []
  commitTs : Option Nat := none

structure Traffic where
  /-- Timestamps up to here have been drawn. -/
  clock : Nat := 0
  /-- The transactions, by start timestamp. -/
  txns : Nat → Option Coordinator := fun _ => none
  /-- The prewrites under way. -/
  sent : List Command := []
  /-- Transaction and key of the prewrites that were applied with success. -/
  prewritten : List (Nat × Key) := []
  /-- The applied commands. -/
  log : List Command := []

inductive TrafficEvent where
  /-- A timestamp is drawn for reads, or lost. -/
  | draw
  | begin
  | ask (ts : Nat) (key : Key) (value : Bytes) (op : WriteOp) (primary : Key) (wallMs : Nat)
  /-- A prewrite under way arrives, and may arrive again. -/
  | prewrite (i : Nat)
  | drawCommit (ts : Nat)
  /-- The coordinator's commit of a key, or a resolver's. -/
  | commit (ts : Nat) (key : Key)
  | rollback (ts : Nat) (key : Key)

namespace Traffic

def db (s : Traffic) : Store := Store.after s.log

/-- The records as a replica has them that has applied `view` commands. -/
def dbAt (s : Traffic) (view : Nat) : Store := Store.after (s.log.take view)

def apply (s : Traffic) (cmd : Command) : Traffic := { s with log := s.log ++ [cmd] }

/-- The state after a prewrite: success is noted. -/
def applyPrewrite (s : Traffic) (cmd : Command) : Traffic :=
  if (cmd.apply s.db).1.isOk then
    { s.apply cmd with prewritten := s.prewritten ++ [(cmd.startTs, cmd.key)] }
  else s.apply cmd

def setTxn (s : Traffic) (ts : Nat) (t : Coordinator) : Traffic :=
  { s with txns := Function.update s.txns ts (some t) }

def step (s : Traffic) : TrafficEvent → Option Traffic
  | .draw => some { s with clock := s.clock + 1 }
  | .begin => some ({ s with clock := s.clock + 1 }.setTxn (s.clock + 1) {})
  | .ask ts key value op primary wallMs =>
      (s.txns ts).bind fun t =>
        if t.commitTs = none then
          some ({ s with sent := s.sent ++ [Command.prewrite key value op ts primary wallMs] }.setTxn ts
            { t with asked := t.asked ++ [key] })
        else none
  | .prewrite i => (s.sent[i]?).map s.applyPrewrite
  | .drawCommit ts =>
      (s.txns ts).bind fun t =>
        if t.commitTs = none ∧ ∀ key ∈ t.asked, (ts, key) ∈ s.prewritten then
          some ({ s with clock := s.clock + 1 }.setTxn ts
            { t with commitTs := some (s.clock + 1) })
        else none
  | .commit ts key =>
      (s.txns ts).bind fun t => t.commitTs.map fun c => s.apply (.commit key ts c)
  | .rollback ts key => (s.txns ts).map fun _ => s.apply (.rollback key ts)

/-- The timestamps of the transactions. -/
def schedule (s : Traffic) : Schedule where
  Start ts := s.txns ts ≠ none
  Drawn ts c := ∃ t, s.txns ts = some t ∧ t.commitTs = some c

/-- The transaction has asked to prewrite the key. -/
def Asked (s : Traffic) (ts : Nat) (key : Key) : Prop := ∃ t, s.txns ts = some t ∧ key ∈ t.asked

/-! ## The invariant. -/

/-- Timestamps are drawn once. -/
structure StampsOk (clock : Nat) (txns : Nat → Option Coordinator) : Prop where
  start : ∀ {ts t}, txns ts = some t → ts ≤ clock
  commit : ∀ {ts t c}, txns ts = some t → t.commitTs = some c →
    ts < c ∧ c ≤ clock ∧ txns c = none
  owner : ∀ {ts ts' t t' c}, txns ts = some t → txns ts' = some t' → t.commitTs = some c →
    t'.commitTs = some c → ts = ts'

theorem StampsOk.owned {s : Traffic} (h : StampsOk s.clock s.txns) : s.schedule.Owned where
  start := fun ⟨t, ht, _⟩ => by
    show s.txns _ ≠ none
    rw [ht]
    simp
  later := fun ⟨_, ht, hc⟩ => (h.commit ht hc).1
  owner := fun ⟨_, ht, hc⟩ ⟨_, ht', hc'⟩ => h.owner ht ht' hc hc'
  apart := fun ⟨_, ht, hc⟩ hstart => hstart (h.commit ht hc).2.2

structure Ok (s : Traffic) : Prop where
  stamps : StampsOk s.clock s.txns
  sent : ∀ cmd ∈ s.sent, ∃ key value op ts primary wallMs,
    cmd = Command.prewrite key value op ts primary wallMs ∧ s.Asked ts key
  log : ∀ cmd ∈ s.log, cmd.Scheduled s.schedule
  prewritten : ∀ p ∈ s.prewritten, Touched s.db p.2 p.1
  /-- Where a commit timestamp is drawn, every key has been touched. -/
  drawn : ∀ {ts t}, s.txns ts = some t → t.commitTs ≠ none → ∀ key ∈ t.asked, Touched s.db key ts
  locks : ∀ {key l}, s.db.lock key = some l → s.Asked l.startTs key
  commits : ∀ {key w}, w ∈ s.db.writes key → w.2.kind ≠ .rollback → s.Asked w.2.startTs key

theorem Ok.empty : Ok {} where
  stamps := ⟨nofun, nofun, nofun⟩
  sent := nofun
  log := nofun
  prewritten := nofun
  drawn := nofun
  locks := nofun
  commits := nofun

section

variable {s s' : Traffic}

theorem Ok.storeOk_of (h : Ok s) {cmds : List Command} (hsub : ∀ cmd ∈ cmds, cmd ∈ s.log) :
    StoreOk s.schedule (Store.after cmds) :=
  (foldl_exec_ok h.stamps.owned (.empty _) (fun cmd hc => h.log cmd (hsub cmd hc))).1

theorem Ok.storeOk (h : Ok s) : StoreOk s.schedule s.db := h.storeOk_of (fun _ hc => hc)

/-- What a step leaves of the transactions. -/
def Keeps (s s' : Traffic) : Prop :=
  ∀ ts t, s.txns ts = some t → ∃ t', s'.txns ts = some t' ∧ (∀ key ∈ t.asked, key ∈ t'.asked) ∧
    ∀ c, t.commitTs = some c → t'.commitTs = some c

variable {ts : Nat} {cmd : Command} {t : Coordinator} {e : TrafficEvent}

theorem Keeps.asked (hk : Keeps s s') {key : Key} (h : s.Asked ts key) :
    s'.Asked ts key := by
  obtain ⟨t, ht, hkey⟩ := h
  obtain ⟨t', ht', hsub, _⟩ := hk _ _ ht
  exact ⟨t', ht', hsub key hkey⟩

theorem Keeps.scheduled (hk : Keeps s s') (h : cmd.Scheduled s.schedule) :
    cmd.Scheduled s'.schedule := by
  have hstart : ∀ ts, s.schedule.Start ts → s'.schedule.Start ts := by
    intro ts hts
    obtain ⟨t, ht⟩ := ne_none_iff_exists'.mp hts
    obtain ⟨t', ht', _⟩ := hk _ _ ht
    show s'.txns ts ≠ none
    rw [ht']
    simp
  cases cmd with
  | prewrite _ _ _ ts _ _ | rollback _ ts => exact hstart ts h
  | commit _ ts c =>
    obtain ⟨t, ht, hc⟩ := h
    obtain ⟨t', ht', _, hc'⟩ := hk _ _ ht
    exact ⟨t', ht', hc' c hc⟩

theorem Ok.advance (h : Ok s) (hk : Keeps s s') (hlog : s'.log = s.log)
    (hpre : s'.prewritten = s.prewritten) (hstamps : StampsOk s'.clock s'.txns)
    (hsent : ∀ cmd ∈ s'.sent, cmd ∈ s.sent ∨ ∃ key value op ts primary wallMs,
      cmd = Command.prewrite key value op ts primary wallMs ∧ s'.Asked ts key)
    (hdrawn : ∀ {ts t}, s'.txns ts = some t → t.commitTs ≠ none → ∀ key ∈ t.asked,
      Touched s.db key ts) : Ok s' := by
  have hdb : s'.db = s.db := congrArg Store.after hlog
  refine ⟨hstamps, fun cmd hcmd => ?_, fun cmd hcmd => ?_, fun p hp => ?_, ?_, ?_, ?_⟩
  · rcases hsent cmd hcmd with hold | hnew
    · obtain ⟨key, value, op, ts, primary, wallMs, heq, hasked⟩ := h.sent cmd hold
      exact ⟨key, value, op, ts, primary, wallMs, heq, hk.asked hasked⟩
    · exact hnew
  · rw [hlog] at hcmd
    exact hk.scheduled (h.log cmd hcmd)
  · rw [hdb]
    rw [hpre] at hp
    exact h.prewritten p hp
  · intro ts t ht hc
    rw [hdb]
    exact hdrawn ht hc
  · intro key l hl
    rw [hdb] at hl
    exact hk.asked (h.locks hl)
  · intro key w hw hkind
    rw [hdb] at hw
    exact hk.asked (h.commits hw hkind)

theorem db_apply (s : Traffic) (cmd : Command) : (s.apply cmd).db = s.db.exec cmd :=
  Store.after_append s.log [cmd]

theorem Ok.apply (h : Ok s) (hc : cmd.Scheduled s.schedule)
    (hasked : ∀ {key value op ts primary wallMs}, cmd = .prewrite key value op ts primary wallMs →
      s.Asked ts key) : Ok (s.apply cmd) := by
  have hok := h.storeOk
  refine ⟨h.stamps, h.sent, fun cmd' hcmd => ?_, fun p hp => ?_, ?_, ?_, ?_⟩
  · rcases mem_append.mp hcmd with hcmd | hcmd
    · exact h.log cmd' hcmd
    · rw [mem_singleton.mp hcmd]
      exact hc
  · rw [s.db_apply]
    exact (h.prewritten p hp).exec h.stamps.owned hok hc
  · intro ts t ht hdrawn key hkey
    rw [s.db_apply]
    exact (h.drawn ht hdrawn key hkey).exec h.stamps.owned hok hc
  · intro key l hl
    rw [s.db_apply] at hl
    rcases lock_exec hl with hl | ⟨value, hcmd⟩
    · exact h.locks hl
    · exact hasked hcmd
  · intro key w hw hkind
    rw [s.db_apply] at hw
    cases exec_change s.db cmd key with
    | same _ hwrites _ | prewrite _ _ _ _ _ hwrites _ => exact h.commits (hwrites ▸ hw) hkind
    | commit _ hheld _ hwrites _ =>
      -- the new record takes the place of a lock
      rw [hwrites] at hw
      rcases mem_insertWrite hw with rfl | hw
      · exact h.locks hheld
      · exact h.commits hw hkind
    | rollback _ _ _ hwrites _ =>
      rw [hwrites] at hw
      split at hw
      · exact h.commits hw hkind
      · rcases mem_insertWrite hw with rfl | hw
        · exact absurd rfl hkind
        · exact h.commits hw hkind

theorem Ok.applyPrewrite (h : Ok s) (hcmd : cmd ∈ s.sent) :
    Ok (s.applyPrewrite cmd) := by
  obtain ⟨key, value, op, ts, primary, wallMs, rfl, hasked⟩ := h.sent cmd hcmd
  have hstart : s.schedule.Start ts := by
    obtain ⟨t, ht, _⟩ := hasked
    show s.txns ts ≠ none
    rw [ht]
    simp
  have hnext : Ok (s.apply (.prewrite key value op ts primary wallMs)) :=
    h.apply hstart (fun heq => by cases heq; exact hasked)
  unfold Traffic.applyPrewrite
  split
  · rename_i hok
    refine ⟨hnext.stamps, hnext.sent, hnext.log, fun p hp => ?_, hnext.drawn, hnext.locks,
      hnext.commits⟩
    rcases mem_append.mp hp with hp | hp
    · exact hnext.prewritten p hp
    · rw [mem_singleton.mp hp]
      show Touched (s.apply (.prewrite key value op ts primary wallMs)).db key ts
      rw [s.db_apply]
      exact touched_of_prewrite_ok hok
  · exact hnext

theorem update_cases {txns : Nat → Option Coordinator} {ts' : Nat} {u : Coordinator}
    (h : update txns ts (some t) ts' = some u) :
    (ts' = ts ∧ u = t) ∨ txns ts' = some u := by
  by_cases heq : ts' = ts
  · rw [heq, update_self] at h
    exact .inl ⟨heq, (Option.some.inj h).symm⟩
  · rw [update_of_ne heq] at h
    exact .inr h

theorem StampsOk.set {clock clock' : Nat} {txns : Nat → Option Coordinator}
    (h : StampsOk clock txns) (hle : clock ≤ clock') (hts : ts ≤ clock')
    (hfresh : txns ts = none → clock < ts)
    (hc : ∀ c, t.commitTs = some c → (∃ u, txns ts = some u ∧ u.commitTs = some c) ∨
      (clock < c ∧ c ≤ clock' ∧ ts < c)) :
    StampsOk clock' (update txns ts (some t)) where
  start := fun ht => by
    rcases update_cases ht with ⟨rfl, _⟩ | ht
    · exact hts
    · exact (h.start ht).trans hle
  commit := fun {ts' u c} ht hu => by
    have hnone : ∀ c, c ≠ ts → txns c = none → update txns ts (some t) c = none :=
      fun c hne hn => (update_of_ne hne ..).trans hn
    rcases update_cases ht with ⟨rfl, rfl⟩ | ht
    · rcases hc c hu with ⟨u', hu', hold⟩ | ⟨hnew, hle', hlt⟩
      · obtain ⟨hlt, hle', hn⟩ := h.commit hu' hold
        exact ⟨hlt, hle'.trans hle, hnone c (by omega) hn⟩
      · refine ⟨hlt, hle', hnone c (by omega) ?_⟩
        cases hn : txns c with
        | none => rfl
        | some v =>
          have := h.start hn
          omega
    · obtain ⟨hlt, hle', hn⟩ := h.commit ht hu
      refine ⟨hlt, hle'.trans hle, hnone c (fun heq => ?_) hn⟩
      -- a start timestamp drawn now is no commit timestamp drawn before
      have := hfresh (heq ▸ hn)
      omega
  owner := fun {ts₁ ts₂ u v c} ht ht' hu hv => by
    -- a commit timestamp drawn now is none drawn before
    have hclash : ∀ {ts' v}, txns ts' = some v → v.commitTs = some c → t.commitTs = some c →
        ts' = ts := by
      intro ts' v ht' hv htc
      rcases hc c htc with ⟨u', hu', hold⟩ | ⟨hnew, _, _⟩
      · exact h.owner ht' hu' hv hold
      · have := (h.commit ht' hv).2.1
        omega
    rcases update_cases ht with ⟨rfl, rfl⟩ | hin
    · rcases update_cases ht' with ⟨rfl, _⟩ | hin'
      · rfl
      · exact (hclash hin' hv hu).symm
    · rcases update_cases ht' with ⟨rfl, rfl⟩ | hin'
      · exact hclash hin hu hv
      · exact h.owner hin hin' hu hv

theorem Keeps.setTxn {t' : Coordinator}
    (hold : ∀ t, s.txns ts = some t → (∀ key ∈ t.asked, key ∈ t'.asked) ∧
      ∀ c, t.commitTs = some c → t'.commitTs = some c)
    (hnext : s'.txns = update s.txns ts (some t')) : Keeps s s' := by
  intro ts' u hu
  rw [hnext]
  by_cases heq : ts' = ts
  · subst heq
    exact ⟨t', update_self .., hold u hu⟩
  · exact ⟨u, (update_of_ne heq ..).trans hu, fun _ h => h, fun _ h => h⟩

theorem Ok.step (h : Ok s) (hstep : s.step e = some s') : Ok s' := by
  cases e with
  | draw =>
    cases hstep
    refine h.advance (fun _ t ht => ⟨t, ht, fun _ hk => hk, fun _ hc => hc⟩) rfl rfl ⟨?_, ?_, ?_⟩
      (fun _ hc => .inl hc) (fun ht hc => h.drawn ht hc)
    · exact fun ht => Nat.le_succ_of_le (h.stamps.start ht)
    · intro ts t c ht hc
      obtain ⟨hlt, hle, hnone⟩ := h.stamps.commit ht hc
      exact ⟨hlt, Nat.le_succ_of_le hle, hnone⟩
    · exact h.stamps.owner
  | begin =>
    cases hstep
    -- the new timestamp is beyond all others
    have hfresh : ∀ t, s.txns (s.clock + 1) ≠ some t := fun t ht => by
      have := h.stamps.start ht
      omega
    refine h.advance (.setTxn (fun t ht => absurd ht (hfresh t)) rfl) rfl rfl
      (h.stamps.set (Nat.le_succ _) le_rfl (fun _ => Nat.lt_succ_self _)
        nofun) (fun _ hc => .inl hc) (fun {ts t} ht hc => ?_)
    rcases update_cases ht with ⟨_, rfl⟩ | ht
    · exact absurd rfl hc
    · exact h.drawn ht hc
  | ask ts key value op primary wallMs =>
    obtain ⟨t, ht, hstep⟩ := bind_eq_some_iff.mp hstep
    split at hstep
    · rename_i hopen
      cases hstep
      have hself : ∀ u, s.txns ts = some u → u = t := fun u hu => Option.some.inj (hu.symm.trans ht)
      refine h.advance (.setTxn (fun u hu => ?_) rfl) rfl rfl
        (h.stamps.set le_rfl (h.stamps.start ht) (fun hn => ?_) (fun c hc => ?_))
        (fun cmd hcmd => ?_) (fun {ts' u} hu hc => ?_)
      · rw [hself u hu]
        exact ⟨fun k hk => mem_append_left _ hk, fun _ hc => hc⟩
      · rw [ht] at hn
        cases hn
      · exact .inl ⟨t, ht, hc⟩
      · rcases mem_append.mp hcmd with hcmd | hcmd
        · exact .inl hcmd
        · exact .inr ⟨key, value, op, ts, primary, wallMs, mem_singleton.mp hcmd, _,
            update_self .., mem_append_right _ (mem_singleton_self key)⟩
      · rcases update_cases hu with ⟨_, rfl⟩ | hu
        · exact absurd hopen hc
        · exact h.drawn hu hc
    · cases hstep
  | prewrite i =>
    obtain ⟨cmd, hcmd, rfl⟩ := map_eq_some_iff.mp hstep
    exact h.applyPrewrite (mem_of_getElem? hcmd)
  | drawCommit ts =>
    obtain ⟨t, ht, hstep⟩ := bind_eq_some_iff.mp hstep
    split at hstep
    · rename_i hguard
      obtain ⟨hopen, hall⟩ := hguard
      cases hstep
      have hle := h.stamps.start ht
      have hself : ∀ u, s.txns ts = some u → u = t := fun u hu => Option.some.inj (hu.symm.trans ht)
      refine h.advance (.setTxn (fun u hu => ?_) rfl) rfl rfl
        (h.stamps.set (Nat.le_succ _) (Nat.le_succ_of_le hle) (fun hn => ?_) (fun c hc => ?_))
        (fun cmd hcmd => .inl hcmd) (fun {ts' u} hu hc => ?_)
      · rw [hself u hu, hopen]
        exact ⟨fun k hk => hk, nofun⟩
      · rw [ht] at hn
        cases hn
      · right
        cases hc
        exact ⟨Nat.lt_succ_self _, le_rfl, Nat.lt_succ_of_le hle⟩
      · rcases update_cases hu with ⟨rfl, rfl⟩ | hu
        · -- each of its prewrites has been applied by now
          exact fun key hkey => h.prewritten (ts', key) (hall key hkey)
        · exact h.drawn hu hc
    · cases hstep
  | commit ts key =>
    obtain ⟨t, ht, hstep⟩ := bind_eq_some_iff.mp hstep
    obtain ⟨c, hc, rfl⟩ := map_eq_some_iff.mp hstep
    exact h.apply ⟨t, ht, hc⟩ nofun
  | rollback ts key =>
    obtain ⟨t, ht, rfl⟩ := map_eq_some_iff.mp hstep
    refine h.apply ?_ nofun
    show s.txns ts ≠ none
    rw [ht]
    simp

theorem Ok.run {es : List TrafficEvent} (h : Machine.run Traffic.step {} es = some s) : Ok s :=
  Machine.run_invariant (fun _ _ _ hs hstep => hs.step hstep) .empty h

/-! ## From a state on. -/

theorem step_drawn (hstep : s.step e = some s') {c : Nat} (ht : s'.txns ts = some t)
    (hc : t.commitTs = some c) : s.txns ts = some t ∨ s.clock < c := by
  cases e with
  | draw =>
    cases hstep
    exact .inl ht
  | begin =>
    cases hstep
    rcases update_cases ht with ⟨_, rfl⟩ | ht
    · cases hc
    · exact .inl ht
  | ask _ _ _ _ _ _ =>
    obtain ⟨u, hu, hstep⟩ := bind_eq_some_iff.mp hstep
    split at hstep
    · rename_i hopen
      cases hstep
      rcases update_cases ht with ⟨_, rfl⟩ | ht
      · rw [hopen] at hc
        cases hc
      · exact .inl ht
    · cases hstep
  | prewrite _ =>
    obtain ⟨cmd, _, rfl⟩ := map_eq_some_iff.mp hstep
    left
    unfold Traffic.applyPrewrite at ht
    split at ht <;> exact ht
  | drawCommit _ =>
    obtain ⟨u, hu, hstep⟩ := bind_eq_some_iff.mp hstep
    split at hstep
    · cases hstep
      rcases update_cases ht with ⟨_, rfl⟩ | ht
      · cases hc
        exact .inr (Nat.lt_succ_self _)
      · exact .inl ht
    · cases hstep
  | commit _ _ =>
    obtain ⟨u, _, hstep⟩ := bind_eq_some_iff.mp hstep
    obtain ⟨_, _, rfl⟩ := map_eq_some_iff.mp hstep
    exact .inl ht
  | rollback _ _ =>
    obtain ⟨_, _, rfl⟩ := map_eq_some_iff.mp hstep
    exact .inl ht

theorem step_grows (hstep : s.step e = some s') :
    s.clock ≤ s'.clock ∧ s.log <+: s'.log := by
  cases e with
  | draw =>
    cases hstep
    exact ⟨Nat.le_succ _, prefix_refl _⟩
  | begin =>
    cases hstep
    exact ⟨Nat.le_succ _, prefix_refl _⟩
  | ask _ _ _ _ _ _ =>
    obtain ⟨u, hu, hstep⟩ := bind_eq_some_iff.mp hstep
    split at hstep
    · cases hstep
      exact ⟨le_rfl, prefix_refl _⟩
    · cases hstep
  | prewrite _ =>
    obtain ⟨cmd, _, rfl⟩ := map_eq_some_iff.mp hstep
    unfold Traffic.applyPrewrite
    split <;> exact ⟨le_rfl, prefix_append _ _⟩
  | drawCommit _ =>
    obtain ⟨u, hu, hstep⟩ := bind_eq_some_iff.mp hstep
    split at hstep
    · cases hstep
      exact ⟨Nat.le_succ _, prefix_refl _⟩
    · cases hstep
  | commit _ _ =>
    obtain ⟨u, _, hstep⟩ := bind_eq_some_iff.mp hstep
    obtain ⟨_, _, rfl⟩ := map_eq_some_iff.mp hstep
    exact ⟨le_rfl, prefix_append _ _⟩
  | rollback _ _ =>
    obtain ⟨_, _, rfl⟩ := map_eq_some_iff.mp hstep
    exact ⟨le_rfl, prefix_append _ _⟩

/-- What is true of the runs from `s₀` on: a transaction whose commit timestamp had been
drawn by then had by then touched its keys. -/
structure Since (s₀ s : Traffic) : Prop where
  ok : Ok s
  clock : s₀.clock ≤ s.clock
  log : s₀.log <+: s.log
  touched : ∀ {ts t c}, s.txns ts = some t → t.commitTs = some c → c ≤ s₀.clock →
    ∀ key ∈ t.asked, Touched s₀.db key ts

theorem Since.run {s₀ : Traffic} (h₀ : Ok s₀) {es : List TrafficEvent}
    (h : Machine.run Traffic.step s₀ es = some s) : Since s₀ s := by
  refine Machine.run_invariant (fun s e s' hs hstep => ?_) ?_ h
  · obtain ⟨hclock, hlog⟩ := step_grows hstep
    refine ⟨hs.ok.step hstep, hs.clock.trans hclock, hs.log.trans hlog, ?_⟩
    intro ts t c ht hc hle
    rcases step_drawn hstep ht hc with hold | hlt
    · exact hs.touched hold hc hle
    · have := hs.clock
      omega
  · refine ⟨h₀, le_rfl, prefix_refl _, ?_⟩
    intro ts t c ht hc _
    exact h₀.drawn ht (by rw [hc]; simp)

theorem dbAt_later {v v' : Nat} (hle : v ≤ v') :
    s.dbAt v' = ((s.log.take v').drop v).foldl Store.exec (s.dbAt v) := by
  have hsplit := take_append_drop v (s.log.take v')
  rw [take_take, Nat.min_eq_left hle] at hsplit
  unfold dbAt
  rw [← Store.after_append, hsplit]

theorem Ok.view_induction (h : Ok s) {I : Store → Prop}
    (hstep : ∀ db cmd, StoreOk s.schedule db → cmd.Scheduled s.schedule → I db → I (db.exec cmd))
    {v v' : Nat} (hle : v ≤ v') (hv : I (s.dbAt v)) : I (s.dbAt v') := by
  rw [dbAt_later hle]
  refine StoreOk.foldl_exec_induction h.stamps.owned hstep (fun cmd hc => ?_)
    (h.storeOk_of (fun cmd hc => mem_of_mem_take hc)) hv
  exact h.log cmd (mem_of_mem_take (mem_of_mem_drop hc))

end

/-- **Snapshot reads are repeatable**: whatever happens between two reads of a key at a
timestamp that had been drawn before the first, if neither is stopped by a lock they
return the same. -/
theorem reads_repeat {es es' : List TrafficEvent} {s₀ s : Traffic}
    (h₀ : Machine.run Traffic.step {} es = some s₀) (h : Machine.run Traffic.step s₀ es' = some s) {ts : Nat}
    (hts : ts ≤ s₀.clock) {v v' : Nat} (hv : s₀.log.length ≤ v) (hle : v ≤ v')
    (hv' : v' ≤ s.log.length) {key : Key} (hfree : ((s.dbAt v).txnGet key ts).2.locked = none)
    (hfree' : ((s.dbAt v').txnGet key ts).2.locked = none) :
    (s.dbAt v').txnGet key ts = (s.dbAt v).txnGet key ts := by
  have hsince := Since.run (Ok.run h₀) h
  have hok := hsince.ok
  have hσ := hok.stamps.owned
  have hstore : ∀ n, StoreOk s.schedule (s.dbAt n) := fun n =>
    hok.storeOk_of (fun cmd hc => mem_of_mem_take hc)
  have hgrows : ∀ {n n' : Nat}, n ≤ n' → ∀ w ∈ (s.dbAt n).writes key, w ∈ (s.dbAt n').writes key :=
    fun hn w hw => hok.view_induction (I := fun db => w ∈ db.writes key)
      (fun db cmd hdb hc hmem => (hdb.exec_keeps hσ hc).2 key w hmem) hn hw
  refine txnGet_eq (hstore v key).sorted (hstore v' key).sorted (fun w hvis => ⟨hgrows hle w, ?_⟩)
    (fun w hw => ?_) hfree hfree'
  · intro hw
    obtain ⟨hslot, hkind⟩ : w.1 ≤ ts ∧ w.2.kind ≠ .rollback := by simpa [visible] using hvis
    -- the commit timestamp was drawn before the first read
    obtain ⟨_, hdrawn⟩ := (hstore v' key).slot w hw
    rw [if_neg hkind] at hdrawn
    obtain ⟨t, ht, hc⟩ := hdrawn
    have hasked : s.Asked w.2.startTs key := by
      apply hok.commits _ hkind
      have hfull : s.dbAt s.log.length = s.db := by
        unfold dbAt db
        rw [take_length]
      rw [← hfull]
      exact hgrows hv' w hw
    obtain ⟨t', ht', hkey⟩ := hasked
    cases ht.symm.trans ht'
    have htouched := hsince.touched ht hc (Nat.le_trans hslot hts) key hkey
    have hpast : s₀.db = s.dbAt s₀.log.length := by
      unfold db dbAt
      rw [List.prefix_iff_eq_take.mp hsince.log, length_take, Nat.min_eq_left hsince.log.length_le]
    rw [hpast] at htouched
    have htouched : Touched (s.dbAt v) key w.2.startTs :=
      hok.view_induction (I := fun db => Touched db key w.2.startTs)
        (fun db cmd hdb hc' hmem => hmem.exec hσ hdb hc') hv htouched
    rcases htouched with ⟨l, hl, hs⟩ | ⟨w', hw', hs⟩
    · -- its lock would have stopped the first read
      have hlt := (hok.stamps.commit ht hc).1
      have hnone := unlocked_of_txnGet hfree
      rw [hl] at hnone
      simp [Option.filter] at hnone
      omega
    · rw [← (hstore v' key).one w' (hgrows hle w' hw') w hw hs]
      exact hw'
  · exact hok.view_induction (I := fun db => w ∈ db.writes key ∧
      db.data key w.2.startTs = (s.dbAt v).data key w.2.startTs)
      (fun db cmd hdb hc ⟨hmem, heq⟩ => ⟨(hdb.exec_keeps hσ hc).2 key w hmem,
        (data_exec_of_mem hσ hdb hmem cmd).trans heq⟩) hle ⟨hw, rfl⟩ |>.2

/-- A transaction commits at 2; the reader's timestamp is 3. -/
def firstCommit : List TrafficEvent :=
  [.begin, .ask 1 [7] [1] .put [7] 0, .prewrite 0, .drawCommit 1, .commit 1 [7], .draw]

/-- Another one overwrites the key; a prewrite of the first arrives again. -/
def overwritten : List TrafficEvent :=
  [.begin, .ask 4 [7] [2] .put [7] 0, .prewrite 1, .prewrite 0, .drawCommit 4, .commit 4 [7]]

theorem reads_repeat_overwritten :
    ∃ s₀ s, Machine.run Traffic.step {} firstCommit = some s₀ ∧
      Machine.run Traffic.step s₀ overwritten = some s ∧ 3 ≤ s₀.clock ∧ s₀.log.length = 2 ∧
      s.log.length = 5 ∧ ((s.dbAt 2).txnGet [7] 3).2.value = [1] ∧
      (s.dbAt 5).txnGet [7] 3 = (s.dbAt 2).txnGet [7] 3 := by
  obtain ⟨s₀, h₀, s, h, hclock, hlen₀, hlen, hfree, hfree', hvalue⟩ : ∃ s₀,
      Machine.run Traffic.step {} firstCommit = some s₀ ∧
        ∃ s, Machine.run Traffic.step s₀ overwritten = some s ∧ 3 ≤ s₀.clock ∧ s₀.log.length = 2 ∧
          s.log.length = 5 ∧ ((s.dbAt 2).txnGet [7] 3).2.locked = none ∧
          ((s.dbAt 5).txnGet [7] 3).2.locked = none ∧
          ((s.dbAt 2).txnGet [7] 3).2.value = [1] := by decide +kernel
  exact ⟨s₀, s, h₀, h, hclock, hlen₀, hlen, hvalue,
    reads_repeat h₀ h hclock (by omega) (by omega) (by omega) hfree hfree'⟩

end Traffic

end Flotilla.Txn
