/-
  Txn.Percolator — what the commands keep true of every key.

  A `Schedule` says which timestamps are start timestamps and which commit
  timestamp was drawn for which transaction; a valid one gives every value to
  one transaction and draws commit timestamps late.  Commands that follow the
  schedule, in any order and any number of times, keep `KeyOk`: a transaction
  leaves at most one record on a key, and none while it holds the lock.
-/
import Flotilla.Txn.Records

namespace Flotilla.Txn

/-! ## Schedules. -/

structure Schedule where
  Start : Nat → Prop
  /-- Commit timestamp `c` was drawn for the transaction that started at `s`. -/
  Drawn : Nat → Nat → Prop

/-- Every timestamp belongs to one transaction, and commits come after starts.  A transaction may
have drawn more than one commit timestamp. -/
structure Schedule.Owned (σ : Schedule) : Prop where
  start : ∀ {s c}, σ.Drawn s c → σ.Start s
  later : ∀ {s c}, σ.Drawn s c → s < c
  owner : ∀ {s s' c}, σ.Drawn s c → σ.Drawn s' c → s = s'
  apart : ∀ {s c}, σ.Drawn s c → ¬ σ.Start c

/-- The command follows the schedule. -/
def Command.Scheduled (σ : Schedule) : Command → Prop
  | .prewrite _ _ _ startTs _ _ => σ.Start startTs
  | .commit _ startTs commitTs => σ.Drawn startTs commitTs
  | .rollback _ startTs => σ.Start startTs

/-! ## The invariant of a key. -/

/-- The slot of a record: a marker sits at the start timestamp, a commit where it was drawn. -/
def SlotOk (σ : Schedule) (w : Nat × WriteRecord) : Prop :=
  σ.Start w.2.startTs ∧
    if w.2.kind = .rollback then w.1 = w.2.startTs else σ.Drawn w.2.startTs w.1

structure KeyOk (σ : Schedule) (lock : Option LockRecord) (ws : List (Nat × WriteRecord)) :
    Prop where
  sorted : ws.Pairwise (fun a b => b.1 < a.1)
  slot : ∀ w ∈ ws, SlotOk σ w
  one : ∀ w ∈ ws, ∀ w' ∈ ws, w.2.startTs = w'.2.startTs → w = w'
  locked : ∀ l, lock = some l → σ.Start l.startTs ∧ ∀ w ∈ ws, w.2.startTs ≠ l.startTs

def StoreOk (σ : Schedule) (db : Store) : Prop := ∀ key, KeyOk σ (db.lock key) (db.writes key)

theorem StoreOk.empty (σ : Schedule) : StoreOk σ {} := fun _ =>
  ⟨.nil, nofun, nofun,
    nofun⟩

section

variable {σ : Schedule} {ws : List (Nat × WriteRecord)} {w : Nat × WriteRecord} {lock : Option LockRecord}

theorem SlotOk.start_le (hσ : σ.Owned) (h : SlotOk σ w) : w.2.startTs ≤ w.1 := by
  obtain ⟨_, hslot⟩ := h
  split at hslot
  · exact Nat.le_of_eq hslot.symm
  · exact Nat.le_of_lt (hσ.later hslot)

theorem SlotOk.same_start (hσ : σ.Owned) {w' : Nat × WriteRecord} (h : SlotOk σ w)
    (h' : SlotOk σ w') (heq : w.1 = w'.1) : w.2.startTs = w'.2.startTs := by
  obtain ⟨hs, hslot⟩ := h
  obtain ⟨hs', hslot'⟩ := h'
  split at hslot
  · split at hslot'
    · omega
    · -- a commit slot is no start timestamp
      rw [← heq, hslot] at hslot'
      exact absurd hs (hσ.apart hslot')
  · split at hslot'
    · rw [heq, hslot'] at hslot
      exact absurd hs' (hσ.apart hslot)
    · rw [heq] at hslot
      exact hσ.owner hslot hslot'

/-! ## The two walks. -/

theorem findTxnOutcome_cons (startTs : Nat) (w : Nat × WriteRecord) (ws : List (Nat × WriteRecord)) :
    findTxnOutcome startTs (w :: ws) =
      if w.2.startTs = startTs then (if w.2.kind = .rollback then (0, true) else (w.1, false))
      else if startTs < w.1 then findTxnOutcome startTs ws else (0, false) := by
  unfold findTxnOutcome
  rw [forEachWrite]
  by_cases hs : w.2.startTs = startTs
  · simp [hs]
  · by_cases hlt : startTs < w.1 <;> simp [hs, hlt]

theorem findTxnOutcome_of_not_mem {startTs : Nat} (h : ∀ w ∈ ws, w.2.startTs ≠ startTs) :
    findTxnOutcome startTs ws = (0, false) := by
  induction ws with
  | nil => rfl
  | cons w ws ih =>
    rw [findTxnOutcome_cons, if_neg (h w mem_cons_self)]
    split
    · exact ih (fun w' hw' => h w' (mem_cons_of_mem w hw'))
    · rfl

theorem findTxnOutcome_of_mem (hsorted : ws.Pairwise (fun a b => b.1 < a.1))
    (hone : ∀ w ∈ ws, ∀ w' ∈ ws, w.2.startTs = w'.2.startTs → w = w') (hw : w ∈ ws)
    (hle : w.2.startTs ≤ w.1) :
    findTxnOutcome w.2.startTs ws =
      if w.2.kind = .rollback then (0, true) else (w.1, false) := by
  induction ws with
  | nil => cases hw
  | cons v ws ih =>
    obtain ⟨hhead, htail⟩ := pairwise_cons.mp hsorted
    rw [findTxnOutcome_cons]
    by_cases hs : v.2.startTs = w.2.startTs
    · rw [if_pos hs, hone v mem_cons_self w hw hs]
    · rw [if_neg hs]
      have hw' : w ∈ ws := by
        rcases mem_cons.mp hw with rfl | hw'
        · exact absurd rfl hs
        · exact hw'
      -- the record lies further down, so this slot is above the start timestamp
      have hlt : w.2.startTs < v.1 := by
        have := hhead w hw'
        omega
      rw [if_pos hlt]
      exact ih htail (fun a ha b hb => hone a (mem_cons_of_mem v ha) b (mem_cons_of_mem v hb)) hw'

theorem conflictScan_cons (startTs : Nat) (w : Nat × WriteRecord) (ws : List (Nat × WriteRecord)) :
    conflictScan startTs (w :: ws) =
      if w.2.kind = .rollback then
        if startTs < w.1 then
          ((conflictScan startTs ws).1,
            decide (w.2.startTs = startTs) || (conflictScan startTs ws).2)
        else (0, decide (w.2.startTs = startTs))
      else (w.1, false) := by
  -- the flag already set is carried along the rest of the walk
  have hcarry : ∀ (b : Bool) (vs : List (Nat × WriteRecord)),
      forEachWrite (fun s commitTs (rec : WriteRecord) =>
        if rec.kind = .rollback then
          ((s.1, s.2 || decide (rec.startTs = startTs)), decide (startTs < commitTs))
        else ((max s.1 commitTs, s.2), false)) ((0 : Nat), b) vs =
      ((conflictScan startTs vs).1, b || (conflictScan startTs vs).2) := by
    intro b vs
    unfold conflictScan
    induction vs generalizing b with
    | nil => simp [forEachWrite]
    | cons v vs ih =>
      rw [forEachWrite, forEachWrite]
      by_cases hk : v.2.kind = .rollback
      · by_cases hlt : startTs < v.1
        · simp only [hk, hlt, if_true, decide_true]
          rw [ih, ih (false || _)]
          simp [Bool.or_assoc]
        · simp [hk, hlt]
      · simp [hk]
  unfold conflictScan
  rw [forEachWrite]
  by_cases hk : w.2.kind = .rollback
  · by_cases hlt : startTs < w.1
    · simp only [hk, hlt, if_true, decide_true]
      rw [hcarry]
      simp [conflictScan]
    · simp [hk, hlt]
  · simp [hk]

theorem conflictScan_refuses (hσ : σ.Owned) (hsorted : ws.Pairwise (fun a b => b.1 < a.1))
    (hslot : ∀ w ∈ ws, SlotOk σ w) (hw : w ∈ ws) :
    (conflictScan w.2.startTs ws).2 = true ∨ w.2.startTs ≤ (conflictScan w.2.startTs ws).1 := by
  induction ws with
  | nil => cases hw
  | cons v ws ih =>
    obtain ⟨hhead, htail⟩ := pairwise_cons.mp hsorted
    have hle := (hslot w hw).start_le hσ
    rw [conflictScan_cons]
    rcases mem_cons.mp hw with rfl | hw'
    · by_cases hk : w.2.kind = .rollback
      · rw [if_pos hk]
        split <;> simp
      · rw [if_neg hk]
        exact .inr hle
    · have hlt := hhead w hw'
      by_cases hk : v.2.kind = .rollback
      · rw [if_pos hk, if_pos (by omega)]
        rcases ih htail (fun a ha => hslot a (mem_cons_of_mem v ha)) hw' with h | h
        · exact .inl (by simp [h])
        · exact .inr h
      · rw [if_neg hk]
        exact .inr (by show w.2.startTs ≤ v.1; omega)

/-! ## Puts into the write column. -/

variable {c : Nat} {r : WriteRecord}

theorem mem_insertWrite {v : Nat × WriteRecord} (h : v ∈ insertWrite c r ws) :
    v = (c, r) ∨ v ∈ ws := by
  induction ws with
  | nil => exact .inl (mem_singleton.mp h)
  | cons u ws ih =>
    rw [insertWrite] at h
    split at h
    · exact (mem_cons.mp h)
    · split at h
      · exact (mem_cons.mp h).imp id (mem_cons_of_mem u)
      · rcases mem_cons.mp h with rfl | h
        · exact .inr mem_cons_self
        · exact (ih h).imp id (mem_cons_of_mem u)

theorem self_mem_insertWrite (c : Nat) (r : WriteRecord) (ws : List (Nat × WriteRecord)) :
    (c, r) ∈ insertWrite c r ws := by
  induction ws with
  | nil => exact mem_cons_self
  | cons u ws ih =>
    rw [insertWrite]
    split
    · exact mem_cons_self
    · split
      · exact mem_cons_self
      · exact mem_cons_of_mem _ ih

theorem subset_insertWrite (hfree : ∀ v ∈ ws, v.1 ≠ c) {v : Nat × WriteRecord} (h : v ∈ ws) :
    v ∈ insertWrite c r ws := by
  induction ws with
  | nil => cases h
  | cons u ws ih =>
    rw [insertWrite, if_neg (hfree u mem_cons_self)]
    split
    · exact mem_cons_of_mem _ h
    · rcases mem_cons.mp h with rfl | h
      · exact mem_cons_self
      · exact mem_cons_of_mem _ (ih (fun v hv => hfree v (mem_cons_of_mem u hv)) h)

theorem sorted_insertWrite (c : Nat) (r : WriteRecord)
    (h : ws.Pairwise (fun a b => b.1 < a.1)) :
    (insertWrite c r ws).Pairwise (fun a b => b.1 < a.1) := by
  induction ws with
  | nil => exact pairwise_singleton _ _
  | cons u ws ih =>
    obtain ⟨hhead, htail⟩ := pairwise_cons.mp h
    rw [insertWrite]
    split
    · rename_i hlt
      refine pairwise_cons.mpr ⟨fun v hv => ?_, h⟩
      show v.1 < c
      rcases mem_cons.mp hv with rfl | hv
      · exact hlt
      · have := hhead v hv
        omega
    · split
      · rename_i heq
        refine pairwise_cons.mpr ⟨fun v hv => ?_, htail⟩
        show v.1 < c
        rw [← heq]
        exact hhead v hv
      · refine pairwise_cons.mpr ⟨fun v hv => ?_, ih htail⟩
        rcases mem_insertWrite hv with rfl | hv
        · show c < u.1
          omega
        · exact hhead v hv

theorem KeyOk.insert (hσ : σ.Owned) (h : KeyOk σ lock ws) (hslot : SlotOk σ (c, r))
    (hnone : ∀ v ∈ ws, v.2.startTs ≠ r.startTs) :
    KeyOk σ none (insertWrite c r ws) ∧ ∀ v ∈ ws, v ∈ insertWrite c r ws := by
  have hfree : ∀ v ∈ ws, v.1 ≠ c := fun v hv heq =>
    hnone v hv ((h.slot v hv).same_start hσ hslot heq)
  refine ⟨⟨sorted_insertWrite c r h.sorted, fun v hv => ?_, fun v hv v' hv' heq => ?_,
    nofun⟩, fun v hv => subset_insertWrite hfree hv⟩
  · rcases mem_insertWrite hv with rfl | hv
    · exact hslot
    · exact h.slot v hv
  · rcases mem_insertWrite hv with rfl | hv
    · rcases mem_insertWrite hv' with rfl | hv'
      · rfl
      · exact absurd heq.symm (hnone v' hv')
    · rcases mem_insertWrite hv' with rfl | hv'
      · exact absurd heq (hnone v hv)
      · exact h.one v hv v' hv' heq

end

/-! ## What each command does. -/

namespace Store

/-- The effect of a command on the lock and write columns of the key it names. -/
structure Effect (db db' : Store) (key : Key) (lock : Option LockRecord)
    (ws : List (Nat × WriteRecord)) : Prop where
  lock_self : db'.lock key = lock
  writes_self : db'.writes key = ws
  lock_other : ∀ k, k ≠ key → db'.lock k = db.lock k
  writes_other : ∀ k, k ≠ key → db'.writes k = db.writes k

end Store

section

variable {σ : Schedule} {db : Store} {key : Key}

theorem exec_prewrite (db : Store) (key : Key) (value : Bytes) (op : WriteOp) (startTs : Nat)
    (primary : Key) (wallMs : Nat) :
    (db.exec (.prewrite key value op startTs primary wallMs) = db) ∨
    ((conflictScan startTs (db.writes key)).2 = false ∧
      (conflictScan startTs (db.writes key)).1 < startTs ∧
      Store.Effect db (db.exec (.prewrite key value op startTs primary wallMs)) key
        (some ⟨startTs, op, wallMs, primary⟩) (db.writes key)) := by
  unfold Store.exec
  simp only [Command.apply, Store.applyPrewrite]
  split
  · exact .inl rfl
  · rename_i hclear
    split
    · exact .inl rfl
    · rename_i hnewer
      split
      · split <;> exact .inl rfl
      · right
        refine ⟨by simpa using hclear, by omega, ?_⟩
        cases op with
        | put =>
          exact ⟨update_self .., rfl, fun k hk => update_of_ne hk .., fun _ _ => rfl⟩
        | delete =>
          exact ⟨update_self .., rfl, fun k hk => update_of_ne hk .., fun _ _ => rfl⟩

theorem exec_commit (db : Store) (key : Key) (startTs commitTs : Nat) :
    (db.exec (.commit key startTs commitTs) = db ∧
      ∀ l, db.lock key = some l → l.startTs ≠ startTs) ∨
    ∃ l, db.lock key = some l ∧ l.startTs = startTs ∧
      ((db.applyCommit key startTs commitTs).1.isOk = true) ∧
      ∃ kind, kind ≠ WriteKind.rollback ∧
      Store.Effect db (db.exec (.commit key startTs commitTs)) key none
        (insertWrite commitTs ⟨kind, startTs⟩ (db.writes key)) := by
  unfold Store.exec
  simp only [Command.apply, Store.applyCommit]
  cases hl : (db.lock key).filter (fun lock => decide (lock.startTs = startTs)) with
  | none =>
    left
    refine ⟨by dsimp only; split <;> [rfl; (split <;> rfl)], fun l hlock heq => ?_⟩
    rw [hlock] at hl
    simp [Option.filter, heq] at hl
  | some l =>
    right
    obtain ⟨hlock, heq⟩ := filter_eq_some_iff.mp hl
    refine ⟨l, hlock, by simpa using heq, rfl,
      if l.op = .delete then .delete else .put, by split <;> simp, ?_⟩
    exact ⟨update_self .., update_self ..,
      fun k hk => update_of_ne hk .., fun k hk => update_of_ne hk ..⟩

theorem exec_rollback (db : Store) (key : Key) (startTs : Nat) :
    ((findTxnOutcome startTs (db.writes key)).1 ≠ 0 ∧ db.exec (.rollback key startTs) = db ∧
      (db.applyRollback key startTs).1.code = .conflict) ∨
    ((findTxnOutcome startTs (db.writes key)).1 = 0 ∧
      (db.applyRollback key startTs).1.code = .ok ∧
      Store.Effect db (db.exec (.rollback key startTs)) key
        ((db.lock key).filter (fun lock => lock.startTs ≠ startTs))
        (if (findTxnOutcome startTs (db.writes key)).2 then db.writes key
          else insertWrite startTs ⟨.rollback, startTs⟩ (db.writes key))) := by
  unfold Store.exec
  simp only [Command.apply, Store.applyRollback]
  by_cases hzero : (findTxnOutcome startTs (db.writes key)).1 = 0
  · right
    rw [if_neg (not_not.mpr hzero)]
    refine ⟨hzero, rfl, ?_⟩
    cases hl : db.lock key with
    | none =>
      simp only [Option.filter_none, nil_append]
      split
      · exact ⟨hl, rfl, fun _ _ => rfl, fun _ _ => rfl⟩
      · exact ⟨hl, update_self .., fun _ _ => rfl, fun k hk => update_of_ne hk ..⟩
    | some l =>
      by_cases hs : l.startTs = startTs
      · simp only [Option.filter, hs, decide_true, if_true, ne_eq, not_true, decide_false]
        split
        · exact ⟨update_self .., rfl, fun k hk => update_of_ne hk .., fun _ _ => rfl⟩
        · exact ⟨update_self .., update_self ..,
            fun k hk => update_of_ne hk .., fun k hk => update_of_ne hk ..⟩
      · simp only [Option.filter, hs, decide_false, ne_eq, not_false_eq_true, decide_true, if_true,
          Bool.false_eq_true, if_false, nil_append]
        split
        · exact ⟨hl, rfl, fun _ _ => rfl, fun _ _ => rfl⟩
        · exact ⟨hl, update_self .., fun _ _ => rfl, fun k hk => update_of_ne hk ..⟩
  · left
    rw [if_pos hzero]
    exact ⟨hzero, rfl, rfl⟩

/-! ## Commands keep the invariant. -/

variable {lock : Option LockRecord} {ws : List (Nat × WriteRecord)} {startTs : Nat} {cmd : Command}
  {k : Key}

theorem StoreOk.of_effect {db' : Store} (h : StoreOk σ db) (he : Store.Effect db db' key lock ws)
    (hk : KeyOk σ lock ws) :
    StoreOk σ db' := by
  intro k
  by_cases hkey : k = key
  · rw [hkey, he.lock_self, he.writes_self]
    exact hk
  · rw [he.lock_other k hkey, he.writes_other k hkey]
    exact h k

theorem grows_of_effect {db' : Store} (he : Store.Effect db db' key lock ws)
    (hsub : ∀ w ∈ db.writes key, w ∈ ws) (k : Key) {w : Nat × WriteRecord} (hw : w ∈ db.writes k) :
    w ∈ db'.writes k := by
  by_cases hkey : k = key
  · subst hkey
    rw [he.writes_self]
    exact hsub w hw
  · rw [he.writes_other k hkey]
    exact hw

theorem KeyOk.none_of_undecided (hσ : σ.Owned) (h : KeyOk σ lock ws)
    (hfind : findTxnOutcome startTs ws = (0, false)) : ∀ w ∈ ws, w.2.startTs ≠ startTs := by
  intro w hw hs
  have hle := (h.slot w hw).start_le hσ
  have hmem := findTxnOutcome_of_mem h.sorted h.one hw hle
  rw [hs, hfind] at hmem
  split at hmem
  · cases hmem
  · rename_i hk
    -- a commit slot is never 0
    have hdrawn := (h.slot w hw).2
    rw [if_neg hk] at hdrawn
    have := hσ.later hdrawn
    have : 0 = w.1 := congrArg Prod.fst hmem
    omega

theorem KeyOk.weaken {lock' : Option LockRecord} (h : KeyOk σ lock ws)
    (hl : ∀ l, lock' = some l → lock = some l) : KeyOk σ lock' ws :=
  { h with locked := fun l hl' => h.locked l (hl l hl') }

/-- A scheduled command keeps the records in order and loses no write record. -/
theorem StoreOk.exec_keeps (hσ : σ.Owned) (h : StoreOk σ db) (hc : cmd.Scheduled σ) :
    StoreOk σ (db.exec cmd) ∧ ∀ k, ∀ w ∈ db.writes k, w ∈ (db.exec cmd).writes k := by
  cases cmd with
  | prewrite key value op startTs primary wallMs =>
    rcases exec_prewrite db key value op startTs primary wallMs with heq | ⟨hclear, hnew, he⟩
    · rw [heq]
      exact ⟨h, fun _ _ hw => hw⟩
    · refine ⟨h.of_effect he ?_, fun k w hw => grows_of_effect he (fun _ hv => hv) k hw⟩
      refine { h key with locked := fun l hl => ?_ }
      cases hl
      refine ⟨hc, fun w hw hs => ?_⟩
      -- its own record would have been met
      rcases conflictScan_refuses hσ (h key).sorted (h key).slot hw with hmet | hmet
      · rw [hs, hclear] at hmet
        cases hmet
      · rw [hs] at hmet
        have hmet : startTs ≤ (conflictScan startTs (db.writes key)).1 := hmet
        omega
  | commit key startTs commitTs =>
    rcases exec_commit db key startTs commitTs with ⟨heq, _⟩ | ⟨l, hl, hs, _, kind, hkind, he⟩
    · rw [heq]
      exact ⟨h, fun _ _ hw => hw⟩
    · have hnone : ∀ v ∈ db.writes key, v.2.startTs ≠ startTs := by
        rw [← hs]
        exact ((h key).locked l hl).2
      have hslot : SlotOk σ (commitTs, ⟨kind, startTs⟩) := by
        refine ⟨hσ.start hc, ?_⟩
        rw [if_neg hkind]
        exact hc
      obtain ⟨hok, hsub⟩ := (h key).insert hσ hslot hnone
      exact ⟨h.of_effect he hok, fun k w hw => grows_of_effect he hsub k hw⟩
  | rollback key startTs =>
    rcases exec_rollback db key startTs with ⟨_, heq, _⟩ | ⟨hzero, _, he⟩
    · rw [heq]
      exact ⟨h, fun _ _ hw => hw⟩
    · have hweak : ∀ l, (db.lock key).filter (fun lock => lock.startTs ≠ startTs) = some l →
          db.lock key = some l := fun l hl => (filter_eq_some_iff.mp hl).1
      split at he
      · exact ⟨h.of_effect he ((h key).weaken hweak),
          fun k w hw => grows_of_effect he (fun _ hv => hv) k hw⟩
      · rename_i hunmarked
        have hfind : findTxnOutcome startTs (db.writes key) = (0, false) :=
          Prod.ext hzero (by simpa using hunmarked)
        have hnone := (h key).none_of_undecided hσ hfind
        have hslot : SlotOk σ (startTs, ⟨.rollback, startTs⟩) := ⟨hc, by rw [if_pos rfl]⟩
        obtain ⟨hok, hsub⟩ := (h key).insert hσ hslot hnone
        refine ⟨h.of_effect he ?_, fun k w hw => grows_of_effect he hsub k hw⟩
        refine { hok with locked := fun l hl => ?_ }
        obtain ⟨hlock, hother⟩ := filter_eq_some_iff.mp hl
        obtain ⟨hstart, hclean⟩ := (h key).locked l hlock
        refine ⟨hstart, fun w hw => ?_⟩
        rcases mem_insertWrite hw with rfl | hw
        · have hne : l.startTs ≠ startTs := by simpa using hother
          exact fun heq => hne heq.symm
        · exact hclean w hw

/-! ## Where records and locks come from. -/

theorem mem_writes_exec {w : Nat × WriteRecord} (hw : w ∈ (db.exec cmd).writes k) :
    w ∈ db.writes k ∨ (w.2.kind = .rollback ∧ cmd = .rollback k w.2.startTs) ∨
      (w.2.kind ≠ .rollback ∧ cmd = .commit k w.2.startTs w.1) := by
  cases cmd with
  | prewrite key value op startTs primary wallMs =>
    left
    rcases exec_prewrite db key value op startTs primary wallMs with heq | ⟨_, _, he⟩
    · rw [heq] at hw
      exact hw
    · by_cases hk : k = key
      · rw [hk, he.writes_self] at hw
        rw [hk]
        exact hw
      · rw [he.writes_other k hk] at hw
        exact hw
  | commit key startTs commitTs =>
    rcases exec_commit db key startTs commitTs with ⟨heq, _⟩ | ⟨l, _, _, _, kind, hkind, he⟩
    · rw [heq] at hw
      exact .inl hw
    · by_cases hk : k = key
      · subst hk
        rw [he.writes_self] at hw
        rcases mem_insertWrite hw with rfl | hw
        · exact .inr (.inr ⟨hkind, rfl⟩)
        · exact .inl hw
      · rw [he.writes_other k hk] at hw
        exact .inl hw
  | rollback key startTs =>
    rcases exec_rollback db key startTs with ⟨_, heq, _⟩ | ⟨_, _, he⟩
    · rw [heq] at hw
      exact .inl hw
    · by_cases hk : k = key
      · subst hk
        rw [he.writes_self] at hw
        split at hw
        · exact .inl hw
        · rcases mem_insertWrite hw with rfl | hw
          · exact .inr (.inl ⟨rfl, rfl⟩)
          · exact .inl hw
      · rw [he.writes_other k hk] at hw
        exact .inl hw

theorem lock_exec {l : LockRecord} (hl : (db.exec cmd).lock k = some l) :
    db.lock k = some l ∨ ∃ value, cmd = .prewrite k value l.op l.startTs l.primary l.wallMs := by
  cases cmd with
  | prewrite key value op startTs primary wallMs =>
    rcases exec_prewrite db key value op startTs primary wallMs with heq | ⟨_, _, he⟩
    · rw [heq] at hl
      exact .inl hl
    · by_cases hk : k = key
      · subst hk
        rw [he.lock_self] at hl
        cases hl
        exact .inr ⟨value, rfl⟩
      · rw [he.lock_other k hk] at hl
        exact .inl hl
  | commit key startTs commitTs =>
    left
    rcases exec_commit db key startTs commitTs with ⟨heq, _⟩ | ⟨_, _, _, _, _, _, he⟩
    · rw [heq] at hl
      exact hl
    · by_cases hk : k = key
      · subst hk
        rw [he.lock_self] at hl
        cases hl
      · rw [he.lock_other k hk] at hl
        exact hl
  | rollback key startTs =>
    left
    rcases exec_rollback db key startTs with ⟨_, heq, _⟩ | ⟨_, _, he⟩
    · rw [heq] at hl
      exact hl
    · by_cases hk : k = key
      · subst hk
        rw [he.lock_self] at hl
        exact (filter_eq_some_iff.mp hl).1
      · rw [he.lock_other k hk] at hl
        exact hl

/-! ## What a status proves. -/

theorem StoreOk.not_both (h : StoreOk σ db) (hc : db.Committed k startTs)
    (hr : db.RolledBack k startTs) : False := by
  obtain ⟨w, hw, hs, hk⟩ := hc
  obtain ⟨w', hw', hs', hk'⟩ := hr
  have heq := (h k).one w hw w' hw' (hs.trans hs'.symm)
  rw [heq] at hk
  exact hk hk'

section

variable (hσ : σ.Owned) (h : StoreOk σ db)

include hσ h

theorem StoreOk.findTxnOutcome_committed :
    (findTxnOutcome startTs (db.writes k)).1 ≠ 0 ↔ db.Committed k startTs := by
  constructor
  · intro hne
    by_contra hnot
    apply hne
    by_cases hr : db.RolledBack k startTs
    · obtain ⟨w, hw, rfl, hk⟩ := hr
      rw [findTxnOutcome_of_mem (h k).sorted (h k).one hw (((h k).slot w hw).start_le hσ),
        if_pos hk]
    · rw [findTxnOutcome_of_not_mem]
      intro w hw hs
      by_cases hk : w.2.kind = .rollback
      · exact hr ⟨w, hw, hs, hk⟩
      · exact hnot ⟨w, hw, hs, hk⟩
  · rintro ⟨w, hw, rfl, hk⟩
    rw [findTxnOutcome_of_mem (h k).sorted (h k).one hw (((h k).slot w hw).start_le hσ), if_neg hk]
    have hdrawn := ((h k).slot w hw).2
    rw [if_neg hk] at hdrawn
    have := hσ.later hdrawn
    show w.1 ≠ 0
    omega

theorem StoreOk.findTxnOutcome_committedAt (hne : (findTxnOutcome startTs (db.writes k)).1 ≠ 0) :
    db.CommittedAt k startTs (findTxnOutcome startTs (db.writes k)).1 := by
  obtain ⟨w, hw, rfl, hk⟩ := (h.findTxnOutcome_committed hσ).mp hne
  rw [findTxnOutcome_of_mem (h k).sorted (h k).one hw (((h k).slot w hw).start_le hσ), if_neg hk]
  exact ⟨w, hw, rfl, rfl, hk⟩

theorem StoreOk.findTxnOutcome_rolledBack (hr : (findTxnOutcome startTs (db.writes k)).2 = true) :
    db.RolledBack k startTs := by
  by_contra hnot
  by_cases hc : db.Committed k startTs
  · obtain ⟨w, hw, rfl, hk⟩ := hc
    rw [findTxnOutcome_of_mem (h k).sorted (h k).one hw (((h k).slot w hw).start_le hσ),
      if_neg hk] at hr
    cases hr
  · rw [findTxnOutcome_of_not_mem] at hr
    · cases hr
    · intro w hw hs
      by_cases hk : w.2.kind = .rollback
      · exact hnot ⟨w, hw, hs, hk⟩
      · exact hc ⟨w, hw, hs, hk⟩

theorem StoreOk.committed_of_commit_ok {commitTs : Nat}
    (hok : (db.applyCommit key startTs commitTs).1.code = .ok) :
    (db.exec (.commit key startTs commitTs)).Committed key startTs := by
  rcases exec_commit db key startTs commitTs with ⟨heq, hnolock⟩ | ⟨l, _, _, _, kind, hkind, he⟩
  · rw [heq]
    have hfilter : (db.lock key).filter (fun lock => decide (lock.startTs = startTs)) = none := by
      cases hl : db.lock key with
      | none => rfl
      | some l => simp [Option.filter, hnolock l hl]
    unfold Store.applyCommit at hok
    rw [hfilter] at hok
    dsimp only at hok
    split at hok
    · rename_i hne
      exact (h.findTxnOutcome_committed hσ).mp hne
    · split at hok <;> cases hok
  · refine ⟨(commitTs, ⟨kind, startTs⟩), ?_, rfl, hkind⟩
    rw [he.writes_self]
    exact self_mem_insertWrite ..

theorem StoreOk.of_rollback_status (key : Key) (startTs : Nat) :
    ((db.applyRollback key startTs).1.code = .ok →
      (db.exec (.rollback key startTs)).RolledBack key startTs) ∧
    ((db.applyRollback key startTs).1.code = .conflict →
      (db.exec (.rollback key startTs)).Committed key startTs) := by
  rcases exec_rollback db key startTs with ⟨hne, heq, hcode⟩ | ⟨hzero, hcode, he⟩
  · rw [heq, hcode]
    exact ⟨nofun, fun _ => (h.findTxnOutcome_committed hσ).mp hne⟩
  · rw [hcode]
    refine ⟨fun _ => ?_, nofun⟩
    unfold Store.RolledBack
    rw [he.writes_self]
    split
    · rename_i hmarked
      exact h.findTxnOutcome_rolledBack hσ hmarked
    · exact ⟨_, self_mem_insertWrite .., rfl, rfl⟩

end

end

end Flotilla.Txn
