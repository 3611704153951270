/-
  Txn.RecordSafety — sequences of commands without a protocol.

  Here any commands arrive in any order and any number of times; all that is
  asked is that a timestamp value belongs to one transaction and that commits
  come after starts (`Disciplined`).  `Change` says once what a command can do to
  the three columns of a key, and `KeySafe` is what every change keeps: a lock is
  newer than every commit on the key, commits do not overlap, and the data of a
  put is there.
-/
import Flotilla.Txn.Invariant

namespace Flotilla.Txn

/-! ## Disciplined sequences. -/

def Command.startTs : Command → Nat
  | .prewrite _ _ _ startTs _ _ => startTs
  | .commit _ startTs _ => startTs
  | .rollback _ startTs => startTs

/-- Each timestamp value belongs to one transaction, and `commit_ts > start_ts`. -/
structure Disciplined (cmds : List Command) : Prop where
  later : ∀ {key s c}, .commit key s c ∈ cmds → s < c
  owner : ∀ {key key' s s' c}, .commit key s c ∈ cmds → .commit key' s' c ∈ cmds → s = s'
  apart : ∀ {key s c}, .commit key s c ∈ cmds → ∀ cmd ∈ cmds, cmd.startTs ≠ c

/-- The timestamps that the commands name. -/
def scheduleOf (cmds : List Command) : Schedule where
  Start s := ∃ cmd ∈ cmds, cmd.startTs = s
  Drawn s c := ∃ key, .commit key s c ∈ cmds

theorem Disciplined.owned {cmds : List Command} (h : Disciplined cmds) :
    (scheduleOf cmds).Owned where
  start := fun ⟨_, hc⟩ => ⟨_, hc, rfl⟩
  later := fun ⟨_, hc⟩ => h.later hc
  owner := fun ⟨_, hc⟩ ⟨_, hc'⟩ => h.owner hc hc'
  apart := fun ⟨_, hc⟩ ⟨cmd, hcmd, hs⟩ => h.apart hc cmd hcmd hs

theorem scheduled_of_mem {cmds : List Command} {cmd : Command} (h : cmd ∈ cmds) :
    cmd.Scheduled (scheduleOf cmds) := by
  cases cmd with
  | prewrite _ _ _ _ _ _ | rollback _ _ => exact ⟨_, h, rfl⟩
  | commit key _ _ => exact ⟨key, h⟩

/-! ## What a command does to a key. -/

/-- What `cmd` does to the columns of `key`. -/
inductive Change (key : Key) (db db' : Store) (cmd : Command) : Prop
  | same (hlock : db'.lock key = db.lock key) (hwrites : db'.writes key = db.writes key)
      (hdata : db'.data key = db.data key)
  | prewrite {l : LockRecord} {value : Bytes}
      (hcmd : cmd = .prewrite key value l.op l.startTs l.primary l.wallMs)
      (hfree : db.lock key = none)
      (hclear : (conflictScan l.startTs (db.writes key)).2 = false)
      (hnewer : (conflictScan l.startTs (db.writes key)).1 < l.startTs)
      (hlock : db'.lock key = some l) (hwrites : db'.writes key = db.writes key)
      (hdata : db'.data key =
        if l.op = .put then Function.update (db.data key) l.startTs (some value) else db.data key)
  | commit {l : LockRecord} {c : Nat} (hcmd : cmd = .commit key l.startTs c)
      (hheld : db.lock key = some l) (hlock : db'.lock key = none)
      (hwrites : db'.writes key =
        insertWrite c ⟨if l.op = .delete then .delete else .put, l.startTs⟩ (db.writes key))
      (hdata : db'.data key = db.data key)
  | rollback {s : Nat} (hcmd : cmd = .rollback key s)
      (hopen : (findTxnOutcome s (db.writes key)).1 = 0)
      (hlock : db'.lock key = (db.lock key).filter (fun lock => lock.startTs ≠ s))
      (hwrites : db'.writes key = if (findTxnOutcome s (db.writes key)).2 then db.writes key
        else insertWrite s ⟨.rollback, s⟩ (db.writes key))
      (hdata : db'.data key =
        if (db.lock key).any (fun lock => lock.startTs = s) then
          Function.update (db.data key) s none
        else db.data key)

theorem Change.prewrite_self (db : Store) (key : Key) (value : Bytes) (op : WriteOp)
    (startTs : Nat) (primary : Key) (wallMs : Nat) :
    Change key db (db.exec (.prewrite key value op startTs primary wallMs))
      (.prewrite key value op startTs primary wallMs) := by
  unfold Store.exec
  simp only [Command.apply, Store.applyPrewrite]
  split
  · exact .same rfl rfl rfl
  · rename_i hclear
    split
    · exact .same rfl rfl rfl
    · rename_i hnewer
      split
      · split <;> exact .same rfl rfl rfl
      · rename_i hfree
        refine .prewrite (l := ⟨startTs, op, wallMs, primary⟩) rfl hfree
          (by simpa using hclear) (Nat.lt_of_not_le hnewer) ?_ ?_ ?_
        · cases op <;> exact update_self ..
        · cases op <;> rfl
        · cases op with
          | put => exact update_self ..
          | delete => rfl

theorem Change.commit_self (db : Store) (key : Key) (startTs commitTs : Nat) :
    Change key db (db.exec (.commit key startTs commitTs)) (.commit key startTs commitTs) := by
  unfold Store.exec
  simp only [Command.apply, Store.applyCommit]
  cases hl : (db.lock key).filter (fun lock => decide (lock.startTs = startTs)) with
  | none =>
    dsimp only
    split
    · exact .same rfl rfl rfl
    · split <;> exact .same rfl rfl rfl
  | some l =>
    obtain ⟨hheld, hs⟩ := filter_eq_some_iff.mp hl
    obtain rfl : l.startTs = startTs := by simpa using hs
    exact .commit rfl hheld (update_self ..) (update_self ..) rfl

theorem Change.rollback_self (db : Store) (key : Key) (startTs : Nat) :
    Change key db (db.exec (.rollback key startTs)) (.rollback key startTs) := by
  unfold Store.exec
  simp only [Command.apply, Store.applyRollback]
  by_cases hopen : (findTxnOutcome startTs (db.writes key)).1 = 0
  · rw [if_neg (not_not.mpr hopen)]
    refine .rollback rfl hopen ?_ ?_ ?_
    -- its own lock or not, its marker there or not
    all_goals
      cases hmark : (findTxnOutcome startTs (db.writes key)).2 <;> cases hl : db.lock key with
      | none => simp [Store.apply, hl]
      | some l =>
        by_cases hs : l.startTs = startTs <;> simp [Store.apply, Option.filter, hs, hl]
  · rw [if_pos hopen]
    exact .same rfl rfl rfl

theorem exec_change (db : Store) (cmd : Command) (key : Key) :
    Change key db (db.exec cmd) cmd := by
  by_cases hk : key = cmd.key
  · cases cmd with
    | prewrite k value op startTs primary wallMs =>
      rw [hk]
      exact .prewrite_self db k value op startTs primary wallMs
    | commit k startTs commitTs =>
      rw [hk]
      exact .commit_self db k startTs commitTs
    | rollback k startTs =>
      rw [hk]
      exact .rollback_self db k startTs
  · have hsame := db.exec_of_ne hk
    exact .same hsame.1 hsame.2.1 hsame.2.2

/-! ## The invariant of a key. -/

theorem conflictScan_newest {startTs : Nat} {ws : List (Nat × WriteRecord)}
    (hsorted : ws.Pairwise (fun a b => b.1 < a.1)) (hnewer : (conflictScan startTs ws).1 < startTs) :
    ∀ w ∈ ws, w.2.kind ≠ .rollback → w.1 < startTs := by
  induction ws with
  | nil => exact nofun
  | cons v ws ih =>
    obtain ⟨hhead, htail⟩ := pairwise_cons.mp hsorted
    intro w hw hk
    rw [conflictScan_cons] at hnewer
    by_cases hv : v.2.kind = .rollback
    · have hw' : w ∈ ws := by
        rcases mem_cons.mp hw with rfl | hw'
        · exact absurd hv hk
        · exact hw'
      rw [if_pos hv] at hnewer
      by_cases hlt : startTs < v.1
      · rw [if_pos hlt] at hnewer
        exact ih htail hnewer w hw' hk
      · -- the walk ends at a marker: what lies below it is older still
        have := hhead w hw'
        omega
    · rw [if_neg hv] at hnewer
      have hv' : v.1 < startTs := hnewer
      rcases mem_cons.mp hw with rfl | hw'
      · exact hv'
      · have := hhead w hw'
        omega

structure KeySafe (lock : Option LockRecord) (ws : List (Nat × WriteRecord))
    (data : Nat → Option Bytes) : Prop where
  newer : ∀ l, lock = some l → ∀ w ∈ ws, w.2.kind ≠ .rollback → w.1 < l.startTs
  disjoint : ∀ w ∈ ws, ∀ w' ∈ ws, w.2.kind ≠ .rollback → w'.2.kind ≠ .rollback →
    w.2.startTs ≠ w'.2.startTs → w.1 < w'.2.startTs ∨ w'.1 < w.2.startTs
  lockData : ∀ l, lock = some l → l.op = .put → data l.startTs ≠ none
  putData : ∀ w ∈ ws, w.2.kind = .put → data w.2.startTs ≠ none

def StoreSafe (db : Store) : Prop :=
  ∀ key, KeySafe (db.lock key) (db.writes key) (db.data key)

theorem StoreSafe.empty : StoreSafe {} := by
  intro key
  refine ⟨fun l hl => ?_, fun w hw => ?_, fun l hl => ?_, fun w hw => ?_⟩
  · cases hl
  · cases hw
  · cases hl
  · cases hw

section

variable {σ : Schedule} {db db' : Store} {cmd : Command} {key : Key}

theorem KeySafe.change (hok : KeyOk σ (db.lock key) (db.writes key))
    (h : KeySafe (db.lock key) (db.writes key) (db.data key)) (hc : Change key db db' cmd) :
    KeySafe (db'.lock key) (db'.writes key) (db'.data key) := by
  cases hc with
  | same hlock hwrites hdata =>
    rw [hlock, hwrites, hdata]
    exact h
  | @prewrite l value _ hfree hclear hnewer hlock hwrites hdata =>
    rw [hlock, hwrites, hdata]
    -- data is only added
    have hadds : ∀ s, db.data key s ≠ none → (if l.op = .put then
        update (db.data key) l.startTs (some value) else db.data key) s ≠ none := by
      intro s hs
      split
      · by_cases heq : s = l.startTs
        · rw [heq, update_self]
          simp
        · rw [update_of_ne heq]
          exact hs
      · exact hs
    refine ⟨fun l' hl' => ?_, h.disjoint, fun l' hl' hput => ?_, fun w hw hk =>
      hadds _ (h.putData w hw hk)⟩
    · cases hl'
      exact conflictScan_newest hok.sorted hnewer
    · cases hl'
      rw [if_pos hput, update_self]
      simp
  | @commit l c _ hheld hlock hwrites hdata =>
    rw [hlock, hwrites, hdata]
    refine ⟨nofun, fun w hw w' hw' hk hk' hne => ?_, nofun, fun w hw hk => ?_⟩
    · -- the lock was newer than every commit, so the new record is
      rcases mem_insertWrite hw with rfl | hw
      · rcases mem_insertWrite hw' with rfl | hw'
        · exact absurd rfl hne
        · exact .inr (h.newer l hheld w' hw' hk')
      · rcases mem_insertWrite hw' with rfl | hw'
        · exact .inl (h.newer l hheld w hw hk)
        · exact h.disjoint w hw w' hw' hk hk' hne
    · rcases mem_insertWrite hw with rfl | hw
      · apply h.lockData l hheld
        cases hop : l.op with
        | put => rfl
        | delete => simp [hop] at hk
      · exact h.putData w hw hk
  | @rollback s _ _ hlock hwrites hdata =>
    -- markers are not commits
    have hold : ∀ w ∈ db'.writes key, w.2.kind ≠ .rollback → w ∈ db.writes key := by
      intro w hw hk
      rw [hwrites] at hw
      split at hw
      · exact hw
      · rcases mem_insertWrite hw with rfl | hw
        · exact absurd rfl hk
        · exact hw
    have hheld : ∀ l, db'.lock key = some l → db.lock key = some l ∧ l.startTs ≠ s := by
      intro l hl
      rw [hlock] at hl
      obtain ⟨hl, hne⟩ := filter_eq_some_iff.mp hl
      exact ⟨hl, by simpa using hne⟩
    refine ⟨fun l hl w hw hk => h.newer l (hheld l hl).1 w (hold w hw hk) hk,
      fun w hw w' hw' hk hk' => h.disjoint w (hold w hw hk) w' (hold w' hw' hk') hk hk',
      fun l hl hput => ?_, fun w hw hk => ?_⟩
    · obtain ⟨hl, hne⟩ := hheld l hl
      rw [hdata, hl]
      simp only [Option.any_some, hne, decide_false, Bool.false_eq_true, if_false]
      exact h.lockData l hl hput
    · have hw := hold w hw (by rw [hk]; simp)
      rw [hdata]
      split
      · rename_i hown
        obtain ⟨l, hl, hs⟩ := (any_eq_true _ _).mp hown
        -- the transaction that holds the lock has no record
        have hne : w.2.startTs ≠ s := by
          rw [← of_decide_eq_true hs]
          exact (hok.locked l hl).2 w hw
        rw [update_of_ne hne]
        exact h.putData w hw hk
      · exact h.putData w hw hk

/-- No command makes committed transactions overlap. -/
theorem StoreSafe.exec (hok : StoreOk σ db) (h : StoreSafe db) (cmd : Command) :
    StoreSafe (db.exec cmd) :=
  fun key => (h key).change (hok key) (exec_change db cmd key)

theorem StoreOk.foldl_exec_induction (hσ : σ.Owned) {I : Store → Prop}
    (hstep : ∀ db cmd, StoreOk σ db → cmd.Scheduled σ → I db → I (db.exec cmd))
    {cmds : List Command} (hc : ∀ cmd ∈ cmds, cmd.Scheduled σ) (hok : StoreOk σ db) (h : I db) :
    I (cmds.foldl Store.exec db) := by
  induction cmds generalizing db with
  | nil => exact h
  | cons cmd cmds ih =>
    have hcmd := hc cmd mem_cons_self
    exact ih (fun c hc' => hc c (mem_cons_of_mem cmd hc')) (hok.exec_keeps hσ hcmd).1
      (hstep db cmd hok hcmd h)

end

theorem Disciplined.after_ok {cmds : List Command} (hd : Disciplined cmds) (pre : List Command)
    (hpre : ∀ cmd ∈ pre, cmd ∈ cmds) :
    StoreOk (scheduleOf cmds) (Store.after pre) ∧ StoreSafe (Store.after pre) := by
  have hc : ∀ cmd ∈ pre, cmd.Scheduled (scheduleOf cmds) := fun cmd h =>
    scheduled_of_mem (hpre cmd h)
  exact ⟨(foldl_exec_ok hd.owned (.empty _) hc).1, StoreOk.foldl_exec_induction hd.owned
    (fun _ cmd hok _ h => h.exec hok cmd) hc (.empty _) .empty⟩

/-! ## No lost updates. -/

/-- **No lost updates**: of two transactions with commit records on a key, one committed
before the other started. -/
theorem commits_disjoint {cmds : List Command} (hd : Disciplined cmds) {key : Key}
    {w w' : Nat × WriteRecord} (hw : w ∈ (Store.after cmds).writes key)
    (hw' : w' ∈ (Store.after cmds).writes key) (hk : w.2.kind ≠ .rollback)
    (hk' : w'.2.kind ≠ .rollback) (hne : w.2.startTs ≠ w'.2.startTs) :
    w.1 < w'.2.startTs ∨ w'.1 < w.2.startTs :=
  ((hd.after_ok cmds (fun _ h => h)).2 key).disjoint w hw w' hw' hk hk' hne

/-- Two transactions that take turns, with a stray prewrite between them. -/
def takingTurns : List Command :=
  [.prewrite [7] [1] .put 1 [7] 0, .prewrite [7] [9] .put 3 [7] 0, .commit [7] 1 2,
    .prewrite [7] [] .delete 4 [7] 0, .commit [7] 4 5, .prewrite [7] [9] .put 3 [7] 0]

theorem disciplined_takingTurns : Disciplined takingTurns where
  later := by
    intro key s c h
    simp [takingTurns] at h
    omega
  owner := by
    intro key key' s s' c h h'
    simp [takingTurns] at h h'
    omega
  apart := by
    intro key s c h cmd hcmd
    simp [takingTurns] at h hcmd
    rcases hcmd with rfl | rfl | rfl | rfl | rfl | rfl <;> simp [Command.startTs] <;> omega

theorem commits_disjoint_takingTurns :
    (2, ⟨.put, 1⟩) ∈ (Store.after takingTurns).writes [7] ∧
      (5, ⟨.delete, 4⟩) ∈ (Store.after takingTurns).writes [7] ∧ (2 < 4 ∨ 5 < 1) := by
  have hw : (2, ⟨.put, 1⟩) ∈ (Store.after takingTurns).writes [7] := by decide
  have hw' : (5, ⟨.delete, 4⟩) ∈ (Store.after takingTurns).writes [7] := by decide
  exact ⟨hw, hw', commits_disjoint disciplined_takingTurns hw hw' (by simp) (by simp) (by simp)⟩

/-! ## Reads find their data. -/

theorem versionScan_cons (w : Nat × WriteRecord) (ws : List (Nat × WriteRecord)) :
    versionScan (w :: ws) =
      match w.2.kind with
      | .rollback => versionScan ws
      | .delete => (0, true)
      | .put => (w.2.startTs, false) := by
  unfold versionScan
  rw [forEachWrite]
  cases w.2.kind <;> rfl

theorem mem_of_versionScan {ws : List (Nat × WriteRecord)} (hlive : (versionScan ws).2 = false)
    (hne : (versionScan ws).1 ≠ 0) :
    ∃ w ∈ ws, w.2.kind = .put ∧ w.2.startTs = (versionScan ws).1 := by
  induction ws with
  | nil => exact absurd rfl hne
  | cons w ws ih =>
    rw [versionScan_cons] at hlive hne ⊢
    cases hk : w.2.kind with
    | put => exact ⟨w, mem_cons_self, hk, rfl⟩
    | delete =>
      rw [hk] at hlive
      cases hlive
    | rollback =>
      rw [hk] at hlive hne
      obtain ⟨v, hv, hrest⟩ := ih hlive hne
      exact ⟨v, mem_cons_of_mem w hv, hrest⟩

theorem StoreSafe.txnGet_ok {db : Store} (h : StoreSafe db) (key : Key) (ts : Nat) :
    (db.txnGet key ts).1.isOk = true := by
  unfold Store.txnGet
  split
  · rfl
  · dsimp only
    split
    · rfl
    · rename_i hlive
      obtain ⟨hlive, hne⟩ := not_or.mp hlive
      obtain ⟨w, hw, hk, hs⟩ := mem_of_versionScan (by simpa using hlive) hne
      have hw : w ∈ db.writes key := (List.dropWhile_sublist _).subset hw
      have hdata := (h key).putData w hw hk
      rw [hs] at hdata
      split
      · rename_i hmissing
        exact absurd hmissing hdata
      · rfl

/-! ## Locks, commits and markers. -/

section

variable {σ : Schedule} {db : Store} {key : Key} {startTs : Nat}

theorem StoreOk.refused_of_rolledBack (hσ : σ.Owned) (h : StoreOk σ db)
    (hr : db.RolledBack key startTs) :
    (∀ value op primary wallMs,
      (db.applyPrewrite key value op startTs primary wallMs).1.isOk = false) ∧
    ∀ commitTs, (db.applyCommit key startTs commitTs).1.isOk = false := by
  obtain ⟨w, hw, rfl, hk⟩ := hr
  constructor
  · intro value op primary wallMs
    have hmet := conflictScan_refuses hσ (h key).sorted (h key).slot hw
    unfold Store.applyPrewrite
    dsimp only
    split
    · rfl
    · rename_i hclear
      rw [if_pos (hmet.resolve_left hclear)]
      rfl
  · intro commitTs
    have hfind := findTxnOutcome_of_mem (h key).sorted (h key).one hw
      (((h key).slot w hw).start_le hσ)
    rw [if_pos hk] at hfind
    unfold Store.applyCommit
    split
    · rw [hfind]
      rfl
    · rename_i l hl
      -- it cannot hold the lock
      obtain ⟨hl, hs⟩ := filter_eq_some_iff.mp hl
      exact absurd (of_decide_eq_true hs).symm (((h key).locked l hl).2 w hw)

theorem StoreOk.refused_of_committed (hσ : σ.Owned) (h : StoreOk σ db)
    (hc : db.Committed key startTs) : (db.applyRollback key startTs).1.isOk = false := by
  unfold Store.applyRollback
  rw [if_pos ((h.findTxnOutcome_committed hσ).mpr hc)]
  rfl

end

/-- **The record invariants.**  After any disciplined sequence `pre`, and for what comes
after any further `post`: a lock excludes records of its transaction; a transaction is not
both committed and rolled back; a marker keeps prewrites and commits out for good, a commit
keeps rollbacks out; the walk for an outcome finds the record; puts have their data, and
reads never miss it. -/
theorem records_consistent {pre post : List Command} (hd : Disciplined (pre ++ post)) (key : Key)
    (startTs : Nat) :
    (∀ l w, (Store.after pre).lock key = some l → w ∈ (Store.after pre).writes key →
      w.2.startTs ≠ l.startTs) ∧
    ¬ ((Store.after pre).Committed key startTs ∧ (Store.after pre).RolledBack key startTs) ∧
    ((Store.after pre).RolledBack key startTs →
      (∀ value op primary wallMs, ((Store.after (pre ++ post)).applyPrewrite key value op startTs
        primary wallMs).1.isOk = false) ∧
      ∀ commitTs, ((Store.after (pre ++ post)).applyCommit key startTs commitTs).1.isOk = false) ∧
    ((Store.after pre).Committed key startTs →
      ((Store.after (pre ++ post)).applyRollback key startTs).1.isOk = false) ∧
    (∀ w ∈ (Store.after pre).writes key,
      findTxnOutcome w.2.startTs ((Store.after pre).writes key) =
        if w.2.kind = .rollback then (0, true) else (w.1, false)) ∧
    (∀ w ∈ (Store.after pre).writes key, w.2.kind = .put →
      (Store.after pre).data key w.2.startTs ≠ none) ∧
    ∀ ts, ((Store.after pre).txnGet key ts).1.isOk = true := by
  obtain ⟨hok, hsafe⟩ := hd.after_ok pre (fun _ h => mem_append_left _ h)
  obtain ⟨hok', _⟩ := hd.after_ok (pre ++ post) (fun _ h => h)
  -- records last
  have hgrows : ∀ w ∈ (Store.after pre).writes key, w ∈ (Store.after (pre ++ post)).writes key := by
    rw [Store.after_append]
    exact (foldl_exec_ok hd.owned hok
      (fun cmd hc => scheduled_of_mem (mem_append_right _ hc))).2 key
  refine ⟨fun l w hl hw => ((hok key).locked l hl).2 w hw, fun ⟨hc, hr⟩ => hok.not_both hc hr,
    fun hr => ?_, fun hc => ?_, fun w hw => ?_, (hsafe key).putData, hsafe.txnGet_ok key⟩
  · obtain ⟨w, hw, hrest⟩ := hr
    exact hok'.refused_of_rolledBack hd.owned ⟨w, hgrows w hw, hrest⟩
  · obtain ⟨w, hw, hrest⟩ := hc
    exact hok'.refused_of_committed hd.owned ⟨w, hgrows w hw, hrest⟩
  · exact findTxnOutcome_of_mem (hok key).sorted (hok key).one hw
      (((hok key).slot w hw).start_le hd.owned)

theorem records_consistent_takingTurns :
    (Store.after takingTurns).Committed [7] 1 ∧
      ((Store.after takingTurns).applyRollback [7] 1).1.isOk = false := by
  have hc : (Store.after takingTurns).Committed [7] 1 := by decide
  have hd : Disciplined (takingTurns ++ []) := by
    rw [append_nil]
    exact disciplined_takingTurns
  have hrefused := (records_consistent hd [7] 1).2.2.2.1 hc
  rw [append_nil] at hrefused
  exact ⟨hc, hrefused⟩

end Flotilla.Txn
