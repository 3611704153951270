/-
  Txn.Replay — a crash in the middle of a command.

  `ApplyLoop` writes its applied marker after the command, and each database
  write of the command is durable on its own.  After a crash the command is
  applied again, to what its first `cut` writes have left.

  A commit may be cut anywhere, a prewrite of a put and a rollback may not.
-/
import Flotilla.Txn.RecordSafety

namespace Flotilla.Txn

/-! ## What is compared. -/

/-- The same lock and write records of the key, and the same data wherever a lock of a put
or the record of a put names it. -/
structure SameAt (a b : Store) (key : Key) : Prop where
  lock : a.lock key = b.lock key
  writes : a.writes key = b.writes key
  lockData : ∀ l, a.lock key = some l → l.op = .put → a.data key l.startTs = b.data key l.startTs
  putData : ∀ w ∈ a.writes key, w.2.kind = .put →
    a.data key w.2.startTs = b.data key w.2.startTs

theorem SameAt.of_eq {a b : Store} {key : Key} (hlock : a.lock key = b.lock key)
    (hwrites : a.writes key = b.writes key) (hdata : a.data key = b.data key) : SameAt a b key :=
  ⟨hlock, hwrites, fun _ _ _ => by rw [hdata], fun _ _ _ => by rw [hdata]⟩

/-- The command applied to what its first `cut` writes have left. -/
def Store.replay (db : Store) (cmd : Command) (cut : Nat) : Store :=
  (db.execUpTo cmd cut).exec cmd

def SameRecords (a b : Store) : Prop := ∀ key, SameAt a b key

/-- A cut that leaves a data record wrong: after the lock of a put, unless its value was
there already; after a rollback has deleted its own lock, if the transaction has data and,
under another slot or behind its marker, the record of a put on the key. -/
def LosesData (db : Store) (cmd : Command) (cut : Nat) : Prop :=
  cut = 1 ∧ match cmd with
    | .prewrite key value op startTs _ _ => op = .put ∧ db.data key startTs ≠ some value
    | .commit _ _ _ => False
    | .rollback key startTs => db.data key startTs ≠ none ∧
        ∃ w ∈ db.writes key, w.2.kind = .put ∧ w.2.startTs = startTs ∧
          (w.1 ≠ startTs ∨ (findTxnOutcome startTs (db.writes key)).2 = true)

/-! ## Write columns of reachable states. -/

theorem sorted_after (cmds : List Command) (key : Key) :
    ((Store.after cmds).writes key).Pairwise (fun a b => b.1 < a.1) := by
  suffices h : ∀ db : Store, (∀ key, (db.writes key).Pairwise (fun a b => b.1 < a.1)) →
      ∀ key, ((cmds.foldl Store.exec db).writes key).Pairwise (fun a b => b.1 < a.1) from
    h {} (fun _ => .nil) key
  induction cmds with
  | nil => exact fun _ h => h
  | cons cmd cmds ih =>
    intro db hdb
    apply ih
    intro k
    cases exec_change db cmd k with
    | same _ hwrites _ | prewrite _ _ _ _ _ hwrites _ => exact hwrites ▸ hdb k
    | commit _ _ _ hwrites _ => exact hwrites ▸ sorted_insertWrite _ _ (hdb k)
    | rollback _ _ _ hwrites _ =>
      rw [hwrites]
      split
      · exact hdb k
      · exact sorted_insertWrite _ _ (hdb k)

theorem insertWrite_idem (c : Nat) (r : WriteRecord) (ws : List (Nat × WriteRecord)) :
    insertWrite c r (insertWrite c r ws) = insertWrite c r ws := by
  induction ws with
  | nil => simp [insertWrite]
  | cons w ws ih =>
    rw [insertWrite]
    split
    · simp [insertWrite]
    · split
      · simp [insertWrite]
      · rename_i hlt hne
        rw [insertWrite, if_neg hlt, if_neg hne, ih]

theorem mem_insertWrite_iff {c : Nat} {r : WriteRecord} {ws : List (Nat × WriteRecord)}
    (hsorted : ws.Pairwise (fun a b => b.1 < a.1)) {v : Nat × WriteRecord} :
    v ∈ insertWrite c r ws ↔ v = (c, r) ∨ (v ∈ ws ∧ v.1 ≠ c) := by
  induction ws with
  | nil => simp [insertWrite]
  | cons w ws ih =>
    obtain ⟨hhead, htail⟩ := pairwise_cons.mp hsorted
    have hbelow : ∀ u ∈ ws, u.1 < w.1 := hhead
    rw [insertWrite]
    split
    · rename_i hlt
      have hlow : ∀ u ∈ w :: ws, u.1 ≠ c := by
        intro u hu
        rcases mem_cons.mp hu with rfl | hu
        · exact Nat.ne_of_lt hlt
        · exact Nat.ne_of_lt ((hbelow u hu).trans hlt)
      rw [mem_cons]
      exact or_congr_right ⟨fun h => ⟨h, hlow v h⟩, fun h => h.1⟩
    · split
      · rename_i heq
        rw [mem_cons]
        refine or_congr_right ⟨fun h => ⟨mem_cons_of_mem w h, ?_⟩, fun h => ?_⟩
        · have := hbelow v h
          omega
        · obtain ⟨h, hne⟩ := h
          rcases mem_cons.mp h with rfl | h
          · exact absurd heq hne
          · exact h
      · rename_i hne
        rw [mem_cons, ih htail, mem_cons]
        constructor
        · rintro (rfl | h | ⟨h, hc⟩)
          · exact .inr ⟨.inl rfl, hne⟩
          · exact .inl h
          · exact .inr ⟨.inr h, hc⟩
        · rintro (h | ⟨rfl | h, hc⟩)
          · exact .inr (.inl h)
          · exact .inl rfl
          · exact .inr (.inr ⟨h, hc⟩)

/-! ## One lemma for each command. -/

section

variable {db : Store} {key : Key}

theorem replay_zero (db : Store) (cmd : Command) : db.replay cmd 0 = db.exec cmd := rfl

variable {cut startTs wallMs : Nat} {primary : Key} {value : Bytes}

theorem SameAt.of_other {cmd : Command} (hne : key ≠ cmd.key) :
    SameAt (db.exec cmd) (db.replay cmd cut) key := by
  have hfull := db.exec_of_ne hne
  have hpart := Store.foldl_apply_of_ne ((cmd.apply db).2.take cut)
    (fun w hw heq => hne (heq.trans (Command.key_of_mem_apply (mem_of_mem_take hw)))) db
  have hagain := (db.execUpTo cmd cut).exec_of_ne hne
  exact .of_eq (hfull.1.trans (hagain.1.trans hpart.1).symm)
    (hfull.2.1.trans (hagain.2.1.trans hpart.2.1).symm)
    (hfull.2.2.trans (hagain.2.2.trans hpart.2.2).symm)

theorem sameRecords_iff {cmd : Command} :
    SameRecords (db.exec cmd) (db.replay cmd cut) ↔
      SameAt (db.exec cmd) (db.replay cmd cut) cmd.key := by
  constructor
  · exact fun h => h cmd.key
  · intro h key
    by_cases hk : key = cmd.key
    · rw [hk]
      exact h
    · exact .of_other hk

theorem applyPrewrite_writes {op : WriteOp}
    (h : (db.applyPrewrite key value op startTs primary wallMs).2 ≠ []) :
    (conflictScan startTs (db.writes key)).2 = false ∧
      ¬ startTs ≤ (conflictScan startTs (db.writes key)).1 ∧
      (db.applyPrewrite key value op startTs primary wallMs).2 =
        .putLock key ⟨startTs, op, wallMs, primary⟩ ::
          if op = .put then [.putData key startTs value] else [] := by
  unfold Store.applyPrewrite at h ⊢
  dsimp only at h ⊢
  split at h
  · exact absurd rfl h
  · rename_i hclear
    split at h
    · exact absurd rfl h
    · rename_i hnewer
      split at h
      · split at h <;> exact absurd rfl h
      · rw [if_neg hclear, if_neg hnewer]
        exact ⟨by simpa using hclear, hnewer, rfl⟩

theorem replay_prewrite (h : (db.applyPrewrite key value .put startTs primary wallMs).2 ≠ []) :
    db.replay (.prewrite key value .put startTs primary wallMs) 1 =
      { db with lock := update db.lock key (some ⟨startTs, .put, wallMs, primary⟩) } := by
  obtain ⟨hclear, hnewer, hwrites⟩ := applyPrewrite_writes h
  have hpart : db.execUpTo (.prewrite key value .put startTs primary wallMs) 1 =
      { db with lock := update db.lock key (some ⟨startTs, .put, wallMs, primary⟩) } := by
    unfold Store.execUpTo
    simp only [Command.apply]
    rw [hwrites]
    rfl
  unfold Store.replay
  rw [hpart]
  unfold Store.exec
  simp only [Command.apply, Store.applyPrewrite]
  rw [if_neg (by simp [hclear]), if_neg hnewer]
  simp

theorem same_prewrite_iff {op : WriteOp}
    (hcut : cut < (db.applyPrewrite key value op startTs primary wallMs).2.length) :
    SameAt (db.exec (.prewrite key value op startTs primary wallMs))
        (db.replay (.prewrite key value op startTs primary wallMs) cut) key ↔
      ¬ (cut = 1 ∧ op = .put ∧ db.data key startTs ≠ some value) := by
  have hne : (db.applyPrewrite key value op startTs primary wallMs).2 ≠ [] := by
    intro hnil
    rw [hnil] at hcut
    cases hcut
  obtain ⟨_, _, hwrites⟩ := applyPrewrite_writes hne
  rcases cut with _ | cut
  · rw [replay_zero]
    exact ⟨fun _ h => absurd h.1 (by simp), fun _ => .of_eq rfl rfl rfl⟩
  · -- only a put makes a second write
    rw [hwrites] at hcut
    cases op with
    | delete => simp at hcut
    | put =>
      obtain rfl : cut = 0 := by
        simp only [if_true, length_cons, length_nil] at hcut
        omega
      have hfull : db.exec (.prewrite key value .put startTs primary wallMs) =
          { db with
            lock := update db.lock key (some ⟨startTs, .put, wallMs, primary⟩)
            data := update db.data key
              (update (db.data key) startTs (some value)) } := by
        unfold Store.exec
        simp only [Command.apply]
        rw [hwrites]
        rfl
      rw [Nat.zero_add, replay_prewrite hne, hfull]
      constructor
      · rintro h ⟨_, _, hdata⟩
        have := h.lockData ⟨startTs, .put, wallMs, primary⟩ (update_self ..) rfl
        simp only [update_self] at this
        exact hdata this.symm
      · intro h
        have hdata : db.data key startTs = some value := by
          by_contra hbad
          exact h ⟨rfl, rfl, hbad⟩
        refine .of_eq rfl rfl ?_
        show update db.data key _ key = db.data key
        rw [update_self, ← hdata, update_eq_self]

theorem same_commit {commitTs : Nat} (hcut : cut < (db.applyCommit key startTs commitTs).2.length) :
    SameAt (db.exec (.commit key startTs commitTs))
      (db.replay (.commit key startTs commitTs) cut) key := by
  cases hl : (db.lock key).filter (fun lock => decide (lock.startTs = startTs)) with
  | none =>
    unfold Store.applyCommit at hcut
    rw [hl] at hcut
    dsimp only at hcut
    split at hcut
    · cases hcut
    · split at hcut <;> cases hcut
  | some l =>
    let record : DbWrite :=
      .putWrite key commitTs ⟨if l.op = .delete then .delete else .put, startTs⟩
    have hwrites : ∀ db' : Store, db'.lock key = db.lock key →
        (db'.applyCommit key startTs commitTs).2 = [record, .deleteLock key] := by
      intro db' hsame
      unfold Store.applyCommit
      rw [hsame, hl]
    rcases cut with _ | _ | cut
    · exact .of_eq rfl rfl rfl
    · have hfull : db.exec (.commit key startTs commitTs) =
          (db.apply record).apply (.deleteLock key) := by
        unfold Store.exec
        simp only [Command.apply]
        rw [hwrites db rfl]
        rfl
      have hreplay : db.replay (.commit key startTs commitTs) 1 =
          ((db.apply record).apply record).apply (.deleteLock key) := by
        unfold Store.replay Store.execUpTo Store.exec
        simp only [Command.apply]
        rw [hwrites db rfl]
        show ((db.apply record).applyCommit key startTs commitTs).2.foldl _ _ = _
        rw [hwrites (db.apply record) rfl]
        rfl
      rw [hfull, hreplay]
      refine .of_eq rfl ?_ rfl
      simp [record, Store.apply, insertWrite_idem]
    · rw [hwrites db rfl] at hcut
      simp only [length_cons, length_nil] at hcut
      omega

theorem applyRollback_writes (h : 1 < (db.applyRollback key startTs).2.length) :
    (∃ l, (db.lock key).filter (fun lock => decide (lock.startTs = startTs)) = some l) ∧
      (findTxnOutcome startTs (db.writes key)).1 = 0 := by
  unfold Store.applyRollback at h
  dsimp only at h
  split at h
  · cases h
  · rename_i hopen
    refine ⟨?_, not_not.mp hopen⟩
    cases hl : (db.lock key).filter (fun lock => decide (lock.startTs = startTs)) with
    | some l => exact ⟨l, rfl⟩
    | none =>
      rw [hl] at h
      dsimp only at h
      split at h <;> simp at h

/-- The marker that a rollback leaves, if it is not there. -/
def markWrites (key : Key) (startTs : Nat) (ws : List (Nat × WriteRecord)) : List DbWrite :=
  if (findTxnOutcome startTs ws).2 then [] else [.putWrite key startTs ⟨.rollback, startTs⟩]

theorem foldl_markWrites (db : Store) (key : Key) (startTs : Nat)
    (ws : List (Nat × WriteRecord)) :
    ((markWrites key startTs ws).foldl Store.apply db).lock = db.lock ∧
      ((markWrites key startTs ws).foldl Store.apply db).data = db.data ∧
      ((markWrites key startTs ws).foldl Store.apply db).writes key =
        if (findTxnOutcome startTs ws).2 then db.writes key
        else insertWrite startTs ⟨.rollback, startTs⟩ (db.writes key) := by
  unfold markWrites
  split
  · exact ⟨rfl, rfl, rfl⟩
  · exact ⟨rfl, rfl, update_self ..⟩

theorem mem_marked_iff {ws : List (Nat × WriteRecord)}
    (hsorted : ws.Pairwise (fun a b => b.1 < a.1)) {w : Nat × WriteRecord} (hk : w.2.kind = .put) :
    (w ∈ if (findTxnOutcome startTs ws).2 then ws
      else insertWrite startTs ⟨.rollback, startTs⟩ ws) ↔
      w ∈ ws ∧ (w.1 ≠ startTs ∨ (findTxnOutcome startTs ws).2 = true) := by
  cases hmark : (findTxnOutcome startTs ws).2 with
  | true => simp
  | false =>
    simp only [Bool.false_eq_true, if_false, or_false]
    rw [mem_insertWrite_iff hsorted]
    constructor
    · rintro (rfl | h)
      · cases hk
      · exact h
    · exact .inr

theorem applyRollback_locked {l : LockRecord}
    (hl : (db.lock key).filter (fun lock => decide (lock.startTs = startTs)) = some l)
    (hopen : (findTxnOutcome startTs (db.writes key)).1 = 0) :
    (db.applyRollback key startTs).2 = .deleteLock key :: .deleteData key startTs ::
      markWrites key startTs (db.writes key) := by
  unfold Store.applyRollback markWrites
  rw [if_neg (not_not.mpr hopen), hl]
  rfl

theorem applyRollback_unlocked (hnone : db.lock key = none)
    (hopen : (findTxnOutcome startTs (db.writes key)).1 = 0) :
    (db.applyRollback key startTs).2 = markWrites key startTs (db.writes key) := by
  unfold Store.applyRollback markWrites
  rw [if_neg (not_not.mpr hopen), hnone]
  rfl

theorem same_marked_iff (hsorted : (db.writes key).Pairwise (fun a b => b.1 < a.1))
    {unlocked : Store} (hunlocked : unlocked = db.apply (.deleteLock key)) :
    SameAt ((markWrites key startTs (db.writes key)).foldl Store.apply
        (unlocked.apply (.deleteData key startTs)))
      ((markWrites key startTs (db.writes key)).foldl Store.apply unlocked) key ↔
      ¬ LosesData db (.rollback key startTs) 1 := by
  subst hunlocked
  have hnone : (db.apply (.deleteLock key)).lock key = none := update_self ..
  obtain ⟨hlock₁, hdata₁, hwrites₁⟩ := foldl_markWrites
    ((db.apply (.deleteLock key)).apply (.deleteData key startTs)) key startTs (db.writes key)
  obtain ⟨hlock₂, hdata₂, hwrites₂⟩ :=
    foldl_markWrites (db.apply (.deleteLock key)) key startTs (db.writes key)
  have hgone : ((db.apply (.deleteLock key)).apply (.deleteData key startTs)).data key =
      update (db.data key) startTs none := update_self ..
  constructor
  · rintro h ⟨_, hdata, w, hw, hk, hs, hslot⟩
    have hsame := h.putData w
    rw [hwrites₁, hdata₁, hdata₂, hgone, hs] at hsame
    have := hsame ((mem_marked_iff hsorted hk).mpr ⟨hw, hslot⟩) hk
    rw [update_self] at this
    exact hdata this.symm
  · intro h
    refine ⟨by rw [hlock₁, hlock₂]; rfl, by rw [hwrites₁, hwrites₂]; rfl, fun l' hl' => ?_,
      fun w hw hk => ?_⟩
    · rw [hlock₁] at hl'
      cases hnone.symm.trans hl'
    · rw [hdata₁, hdata₂, hgone]
      by_cases hs : w.2.startTs = startTs
      · rw [hs, update_self]
        by_contra hdata
        rw [hwrites₁] at hw
        obtain ⟨hw, hslot⟩ := (mem_marked_iff hsorted hk).mp hw
        exact h ⟨rfl, fun hn => hdata hn.symm, w, hw, hk, hs, hslot⟩
      · rw [update_of_ne hs]
        rfl

theorem same_rollback_iff (hsorted : (db.writes key).Pairwise (fun a b => b.1 < a.1))
    (hcut : cut < (db.applyRollback key startTs).2.length) :
    SameAt (db.exec (.rollback key startTs)) (db.replay (.rollback key startTs) cut) key ↔
      ¬ LosesData db (.rollback key startTs) cut := by
  rcases cut with _ | cut
  · rw [replay_zero]
    exact ⟨fun _ h => absurd h.1 (by simp), fun _ => .of_eq rfl rfl rfl⟩
  · obtain ⟨⟨l, hl⟩, hopen⟩ := applyRollback_writes ((Nat.le_add_left 1 cut).trans_lt hcut)
    have hwrites := applyRollback_locked hl hopen
    let unlocked := db.apply (.deleteLock key)
    have hnone : unlocked.lock key = none := update_self ..
    have hfull : db.exec (.rollback key startTs) = (markWrites key startTs (db.writes key)).foldl
        Store.apply (unlocked.apply (.deleteData key startTs)) := by
      unfold Store.exec
      simp only [Command.apply]
      rw [hwrites]
      rfl
    have hlen : (markWrites key startTs (db.writes key)).length ≤ 1 := by
      unfold markWrites
      split <;> simp
    rw [hwrites] at hcut
    simp only [length_cons] at hcut
    obtain hcut | hcut : cut = 0 ∨ cut = 1 := by omega
    · -- the lock is gone and the data is not
      subst hcut
      have hreplay : db.replay (.rollback key startTs) 1 =
          (markWrites key startTs (db.writes key)).foldl Store.apply unlocked := by
        unfold Store.replay Store.execUpTo Store.exec
        simp only [Command.apply]
        rw [hwrites]
        show (unlocked.applyRollback key startTs).2.foldl Store.apply unlocked = _
        rw [applyRollback_unlocked hnone hopen]
        rfl
      rw [Nat.zero_add, hreplay, hfull]
      exact same_marked_iff hsorted rfl
    · -- only the marker is missing
      subst hcut
      have hreplay : db.replay (.rollback key startTs) 2 = db.exec (.rollback key startTs) := by
        rw [hfull]
        unfold Store.replay Store.execUpTo Store.exec
        simp only [Command.apply]
        rw [hwrites]
        show ((unlocked.apply (.deleteData key startTs)).applyRollback key startTs).2.foldl
          Store.apply (unlocked.apply (.deleteData key startTs)) = _
        have hagain : ((unlocked.apply (.deleteData key startTs)).applyRollback key startTs).2 =
            markWrites key startTs (db.writes key) := applyRollback_unlocked hnone hopen
        rw [hagain]
      rw [hreplay]
      exact ⟨fun _ h => absurd h.1 (by simp), fun _ => .of_eq rfl rfl rfl⟩

end

/-! ## Crash and replay. -/

/-- **Crash and replay**: a command that is cut after some but not all of its writes and
then applied again leaves the records of one application, unless the cut loses data. -/
theorem replay_same_iff (cmds : List Command) (cmd : Command) {cut : Nat}
    (hcut : cut < (cmd.apply (Store.after cmds)).2.length) :
    SameRecords ((Store.after cmds).exec cmd) ((Store.after cmds).replay cmd cut) ↔
      ¬ LosesData (Store.after cmds) cmd cut := by
  rw [sameRecords_iff]
  cases cmd with
  | prewrite key value op startTs primary wallMs => exact same_prewrite_iff hcut
  | commit key startTs commitTs => exact ⟨fun _ h => h.2, fun _ => same_commit hcut⟩
  | rollback key startTs => exact same_rollback_iff (sorted_after cmds key) hcut

/-- A commit that is cut between its two writes. -/
theorem replay_same_iff_commit :
    1 < ((Command.commit [7] 1 2).apply (Store.after [.prewrite [7] [1] .put 1 [7] 0])).2.length ∧
      SameRecords ((Store.after [.prewrite [7] [1] .put 1 [7] 0]).exec (.commit [7] 1 2))
        ((Store.after [.prewrite [7] [1] .put 1 [7] 0]).replay (.commit [7] 1 2) 1) := by
  have hcut : 1 < ((Command.commit [7] 1 2).apply
      (Store.after [.prewrite [7] [1] .put 1 [7] 0])).2.length := by decide
  exact ⟨hcut, (replay_same_iff [.prewrite [7] [1] .put 1 [7] 0] (.commit [7] 1 2) hcut).mpr
    (fun h => h.2)⟩

/-- A prewrite on the empty store that is cut after its lock: the replay succeeds, the lock
of a put is there, and its data is not. -/
theorem replayed_prewrite_without_data :
    1 < ((Command.prewrite [7] [1] .put 1 [7] 0).apply (Store.after [])).2.length ∧
      ((Command.prewrite [7] [1] .put 1 [7] 0).apply
        ((Store.after []).execUpTo (.prewrite [7] [1] .put 1 [7] 0) 1)).1.isOk = true ∧
      ((Store.after []).replay (.prewrite [7] [1] .put 1 [7] 0) 1).lock [7] =
        some ⟨1, .put, 0, [7]⟩ ∧
      ((Store.after []).replay (.prewrite [7] [1] .put 1 [7] 0) 1).data [7] 1 = none ∧
      ((Store.after []).exec (.prewrite [7] [1] .put 1 [7] 0)).data [7] 1 = some [1] ∧
      ¬ SameRecords ((Store.after []).exec (.prewrite [7] [1] .put 1 [7] 0))
        ((Store.after []).replay (.prewrite [7] [1] .put 1 [7] 0) 1) := by
  refine ⟨by decide, by decide, by decide, by decide, by decide, fun h => ?_⟩
  cases (h [7]).lockData ⟨1, .put, 0, [7]⟩ (by decide) rfl

end Flotilla.Txn
