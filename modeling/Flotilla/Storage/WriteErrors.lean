/-
  Storage.WriteErrors — writes that fail, and the writes behind them.

  `WalWriter::Append` may fail in the middle of a record.  `WriteImpl` then
  returns an error and leaves the log as it is: the next record stands behind
  what was written of the failed one, where `RecoverWal` never gets to.
-/
import Flotilla.Storage.Engine
import Flotilla.Storage.WalRecovery

namespace Flotilla.Storage

/-! ## Sessions. -/

/-- How `Append` ends: with the whole record, or with an error behind its first `size` bytes. -/
inductive Append where
  | done
  | failed (size : Nat)

/-- An open database, the entries whose writes returned OK with the numbers of their logs, and the
logs that the background thread has removed. -/
structure Session where
  disk : Disk
  db : Db
  acked : List (Nat × Entry) := []
  removed : List Nat := []

namespace Session

inductive Event where
  | call (w : Write) (append : Append)
  | act (a : Action)

def next (s : Session) (w : Write) : Entry := w.entry (s.db.lastSeq + 1)

def log (s : Session) : Bytes := (s.disk.wals.read s.db.walNumber).getD []

def step (opts : Options) (s : Session) : Event → Option Session
  | .call w .done =>
      if s.db.accepts then
        some { s with
          disk := (s.db.write opts s.disk w).1
          db := (s.db.write opts s.disk w).2
          acked := s.acked ++ [(s.db.walNumber, s.next w)] }
      else none
  | .call w (.failed size) =>
      if s.db.accepts ∧ size < (walRecord (s.next w)).length then
        some { s with
          disk := s.disk.appendWal s.db.walNumber ((walRecord (s.next w)).take size) }
      else none
  | .act a =>
      match s.db.advance opts s.disk a with
      | some (disk, .opened db) =>
          some { s with
            disk := disk
            db := db
            removed := s.removed ++ s.disk.wals.numbers.filter (· ∉ disk.wals.numbers) }
      | _ => none

/-- What `Open` leaves: an empty log, and no memtable but the active one. -/
structure Opened (s : Session) : Prop where
  idle : s.db.stage = .idle
  imm : s.db.imm = []
  number : s.db.walNumber < s.db.nextFile
  log : s.disk.wals.read s.db.walNumber = some []
  acked : s.acked = []
  removed : s.removed = []

/-- `RecoverWal` on the log returns the entry. -/
def Recovered (s : Session) (p : Nat × Entry) : Prop :=
  ∃ data, s.disk.wals.read p.1 = some data ∧ p.2 ∈ (recoverWal data).1

def Kept (s : Session) (p : Nat × Entry) : Prop := s.Recovered p ∨ p.1 ∈ s.removed

/-- Nothing stands behind the last record that `RecoverWal` reads. -/
def Clean (log : Bytes) : Prop := (recoverWal log).2 = log.length

instance (log : Bytes) : Decidable (Clean log) := inferInstanceAs (Decidable (_ = _))

/-- A record goes behind whole records, and fits its length field. -/
def Sound (s : Session) : Event → Prop
  | .call w .done => Clean s.log ∧ (s.next w).Fits
  | _ => True

instance (s : Session) (e : Event) : Decidable (s.Sound e) :=
  match e with
  | .call _ .done => inferInstanceAs (Decidable (_ ∧ _))
  | .call _ (.failed _) => inferInstanceAs (Decidable True)
  | .act _ => inferInstanceAs (Decidable True)

end Session

/-! ## Logs that grow. -/

theorem recoverWal_mono (data rest : Bytes) :
    (recoverWal data).1 <+: (recoverWal (data ++ rest)).1 := by
  have hsplit : data ++ rest =
      data.take (recoverWal data).2 ++ (data.drop (recoverWal data).2 ++ rest) := by
    rw [← append_assoc, take_append_drop]
  rw [hsplit, recoverWal_truncate_append]
  exact prefix_append _ _

theorem mem_recoverWal_record {log : Bytes} {e : Entry} (hclean : Session.Clean log)
    (hfits : e.Fits) : e ∈ (recoverWal (log ++ walRecord e)).1 := by
  have hone : (recoverWal (walRecord e)).1 = [e] := by
    have hread : recoverWal (walRecords [e] ++ []) = ([e], (walRecords [e]).length) :=
      (recoverWal_records (List.forall_mem_singleton.mpr hfits)).mpr rfl
    rw [append_nil] at hread
    rw [show walRecord e = walRecords [e] from (append_nil _).symm, hread]
  have hlog : log = log.take (recoverWal log).2 := by rw [hclean, take_length]
  rw [hlog, recoverWal_truncate_append, hone]
  exact mem_append_right _ mem_cons_self

theorem read_appendWal (disk : Disk) (n m : Nat) (bytes : Bytes) :
    (disk.appendWal n bytes).wals.read m =
      if m = n then some ((disk.wals.read n).getD [] ++ bytes) else disk.wals.read m :=
  Files.read_write disk.wals n m _

/-! ## What the background thread does to the logs. -/

namespace Db

/-- The logs that are to be removed, now or when their memtables are flushed. -/
def doomed (db : Db) : List Nat :=
  (db.imm.map ImmEntry.walNumber) ++
    match db.stage with
    | .remove _ wals _ => wals
    | _ => []

/-- The active log is newer than those. -/
structure Logs (db : Db) : Prop where
  running : db.running = true
  older : ∀ n ∈ db.doomed, n < db.walNumber
  number : db.walNumber < db.nextFile

/-- A step that leaves the active log where it is. -/
structure Steps (disk disk' : Disk) (db db' : Db) : Prop where
  running : db'.running = true
  number : db'.walNumber = db.walNumber
  nextFile : db.nextFile ≤ db'.nextFile
  doomed : ∀ n ∈ db'.doomed, n ∈ db.doomed
  wals : disk'.wals = disk.wals ∨ ∃ n ∈ db.doomed, disk'.wals = disk.wals.remove n

variable {opts : Options} {disk disk' : Disk} {db db' : Db}

theorem Steps.logs (h : Steps disk disk' db db') (hlogs : db.Logs) : db'.Logs where
  running := h.running
  older n hn := by
    rw [h.number]
    exact hlogs.older n (h.doomed n hn)
  number := by
    rw [h.number]
    exact hlogs.number.trans_le h.nextFile

theorem removeFile_steps (hrun : db.running = true)
    (h : db.removeFile disk = some (disk', .opened db')) : Steps disk disk' db db' := by
  cases hstage : db.stage with
  | scan orphans todo wals => simp [running, hstage] at hrun
  | build task tables current outputs | idle => simp [removeFile, hstage] at h
  | remove recovering wals ssts =>
    have hrec : recovering = false := by simpa [running, hstage] using hrun
    cases wals with
    | cons n wals =>
      simp only [removeFile, hstage] at h
      cases h
      refine ⟨by simp [running, hrec], rfl, le_rfl, ?_, .inr ⟨n, ?_, rfl⟩⟩
      · intro m hm
        simp only [doomed, hstage, mem_append, mem_cons] at hm ⊢
        exact hm.imp_right Or.inr
      · simp [doomed, hstage]
    | nil =>
      cases ssts with
      | nil => simp [removeFile, hstage] at h
      | cons n ssts =>
        simp only [removeFile, hstage] at h
        cases h
        refine ⟨by simp [running, hrec], rfl, le_rfl, ?_, .inl rfl⟩
        intro m hm
        simpa [doomed, hstage] using hm

theorem steps_of_frame (hrun : db'.running = true) (himm : db'.imm = db.imm)
    (hnumber : db'.walNumber = db.walNumber) (hnext : db.nextFile ≤ db'.nextFile)
    (hwals : disk'.wals = disk.wals)
    (hstage : ∀ recovering wals ssts, db'.stage = .remove recovering wals ssts → wals = []) :
    Steps disk disk' db db' where
  running := hrun
  number := hnumber
  nextFile := hnext
  doomed n hn := by
    unfold doomed at hn ⊢
    rw [himm] at hn
    apply mem_append_left
    cases mem_append.mp hn with
    | inl hold => exact hold
    | inr hnew =>
      cases hs : db'.stage with
      | remove recovering wals ssts => simp [hs, hstage recovering wals ssts hs] at hnew
      | scan orphans todo wals | build task tables current outputs | idle => simp [hs] at hnew
  wals := .inl hwals

theorem build_steps (hrun : db.running = true) (h : db.build opts disk = some (disk', .opened db')) :
    Steps disk disk' db db' := by
  cases hstage : db.stage with
  | scan orphans todo wals => simp [running, hstage] at hrun
  | build task tables current outputs | remove recovering wals ssts => simp [build, hstage] at h
  | idle =>
    simp only [build, hstage] at h
    cases himm : db.imm with
    | cons i imm =>
      simp only [himm] at h
      cases h
      exact steps_of_frame rfl himm.symm rfl le_rfl rfl nofun
    | nil =>
      simp only [himm] at h
      cases hpick : pickCompaction opts db.version db.compactPtr with
      | nothing | undefined => simp [hpick] at h
      | found c compactPtr =>
        simp only [hpick] at h
        cases h
        exact steps_of_frame rfl himm.symm rfl le_rfl rfl nofun

theorem running_build {task : Task} {tables tables' : List (List Entry)} {current current' : Option Nat}
    {outputs outputs' : List TableHandle} (hstage : db.stage = .build task tables current outputs)
    (hrun : db.running = true) :
    ({ db with stage := .build task tables' current' outputs' } : Db).running = true := by
  cases task with
  | recover wals => simp [running, hstage] at hrun
  | flush | compact c => rfl

theorem table_steps (hrun : db.running = true)
    (h : db.openTable disk = some (disk', .opened db') ∨
      (∃ size, db.writeTable opts disk size = some (disk', .opened db')) ∨
      db.closeTable opts disk = some (disk', .opened db')) : Steps disk disk' db db' := by
  cases hstage : db.stage with
  | scan orphans todo wals => simp [running, hstage] at hrun
  | remove recovering wals ssts | idle => simp [openTable, writeTable, closeTable, hstage] at h
  | build task tables current outputs =>
    have hbuild : ∀ {tables current outputs},
        ({ db with stage := .build task tables current outputs } : Db).running = true :=
      running_build hstage hrun
    cases tables with
    | nil => simp [openTable, writeTable, closeTable, hstage] at h
    | cons es tables =>
      cases current with
      | none =>
        simp only [openTable, writeTable, closeTable, hstage, reduceCtorEq, exists_false, or_false] at h
        cases h
        exact steps_of_frame hbuild rfl rfl (Nat.le_succ _) rfl nofun
      | some n =>
        simp only [openTable, writeTable, closeTable, hstage, reduceCtorEq, false_or,
          Option.some.injEq, Prod.mk.injEq, Mode.opened.injEq] at h
        rcases h with ⟨size, rfl, rfl⟩ | h
        · exact steps_of_frame hrun rfl rfl le_rfl rfl fun _ _ _ h => by simp [hstage] at h
        · split at h
          · simp at h
          · cases h
            exact steps_of_frame hbuild rfl rfl le_rfl rfl nofun

theorem install_steps (hrun : db.running = true)
    (h : db.install disk = some (disk', .opened db')) : Steps disk disk' db db' := by
  cases hstage : db.stage with
  | scan orphans todo wals => simp [running, hstage] at hrun
  | remove recovering wals ssts | idle => simp [install, hstage] at h
  | build task tables current outputs =>
    cases tables with
    | cons es tables => simp [install, hstage] at h
    | nil =>
      cases current with
      | some n => simp [install, hstage] at h
      | none =>
        cases task with
        | recover wals => simp [running, hstage] at hrun
        | flush =>
          cases himm : db.imm with
          | nil => simp [install, hstage, himm] at h
          | cons i imm =>
            simp only [install, hstage, himm] at h
            cases h
            -- the flushed memtable's log goes from one list to the other
            refine ⟨rfl, rfl, le_rfl, fun n hn => ?_, .inl rfl⟩
            simp only [doomed, himm, hstage, map_cons, mem_append,
              mem_cons, not_mem_nil, or_false] at hn ⊢
            exact hn.symm
        | compact c =>
          simp only [install, hstage] at h
          cases h
          exact steps_of_frame rfl rfl rfl le_rfl rfl fun _ _ _ h => by cases h; rfl

theorem resume_steps (hrun : db.running = true)
    (h : db.resume disk = some (disk', .opened db')) : Steps disk disk' db db' := by
  cases hstage : db.stage with
  | scan orphans todo wals => simp [running, hstage] at hrun
  | build task tables current outputs | idle => simp [resume, hstage] at h
  | remove recovering wals ssts =>
    have hrec : recovering = false := by simpa [running, hstage] using hrun
    subst hrec
    cases wals with
    | cons n wals => simp [resume, hstage] at h
    | nil =>
      cases ssts with
      | cons n ssts => simp [resume, hstage] at h
      | nil =>
        simp only [resume, hstage] at h
        cases h
        exact steps_of_frame rfl rfl rfl le_rfl rfl nofun

theorem advance_logs {a : Action} (hrun : db.running = true)
    (h : db.advance opts disk a = some (disk', .opened db')) :
    Steps disk disk' db db' ∨ (disk', db') = db.switch disk := by
  cases a with
  | removeFile => exact .inl (removeFile_steps hrun h)
  | replayWal =>
    cases hstage : db.stage with
    | scan orphans todo wals => simp [running, hstage] at hrun
    | build task tables current outputs | remove recovering wals ssts | idle =>
      simp [advance, replayWal, hstage] at h
  | build => exact .inl (build_steps hrun h)
  | openTable => exact .inl (@table_steps opts disk disk' db db' hrun (.inl h))
  | writeTable size => exact .inl (table_steps hrun (.inr (.inl ⟨size, h⟩)))
  | closeTable => exact .inl (table_steps hrun (.inr (.inr h)))
  | install => exact .inl (install_steps hrun h)
  | resume => exact .inl (resume_steps hrun h)
  | switchMemtable =>
    simp only [advance, switchMemtable] at h
    split at h
    · simp only [Option.some.injEq, Prod.mk.injEq, Mode.opened.injEq] at h
      exact .inr (by rw [← h.1, ← h.2])
    · cases h

theorem Logs.switch (h : db.Logs) (disk : Disk) : (db.switch disk).2.Logs where
  running := h.running
  older n hn := by
    have hnumber := h.number
    show n < db.nextFile
    simp only [Db.switch, doomed, map_append, mem_append, map_cons, List.map_nil,
      mem_singleton] at hn
    rcases hn with (himm | rfl) | hstage
    · have := h.older n (mem_append_left _ himm)
      omega
    · exact hnumber
    · have := h.older n (mem_append_right _ hstage)
      omega
  number := Nat.lt_succ_self _

end Db

/-! ## Runs. -/

namespace Session

variable {opts : Options}

/-- The invariant: every acknowledged entry is kept, and the active log is there. -/
structure Ok (s : Session) : Prop where
  logs : s.db.Logs
  active : ∃ data, s.disk.wals.read s.db.walNumber = some data
  kept : ∀ p ∈ s.acked, s.Kept p
  numbers : ∀ p ∈ s.acked, p.1 < s.db.nextFile

theorem Opened.ok {s : Session} (h : s.Opened) : s.Ok where
  logs :=
    { running := by simp [Db.running, h.idle]
      older := by simp [Db.doomed, h.idle, h.imm]
      number := h.number }
  active := ⟨[], h.log⟩
  kept := by simp [h.acked]
  numbers := by simp [h.acked]

theorem Kept.append {s : Session} {p : Nat × Entry} (h : s.Kept p) (n : Nat) (bytes : Bytes) :
    ({ s with disk := s.disk.appendWal n bytes } : Session).Kept p := by
  refine h.imp_left ?_
  rintro ⟨data, hread, hmem⟩
  by_cases hn : p.1 = n
  · refine ⟨data ++ bytes, ?_, (recoverWal_mono data bytes).subset hmem⟩
    show (s.disk.appendWal n bytes).wals.read p.1 = _
    rw [read_appendWal, if_pos hn, ← hn, hread]
    rfl
  · refine ⟨data, ?_, hmem⟩
    show (s.disk.appendWal n bytes).wals.read p.1 = _
    rw [read_appendWal, if_neg hn, hread]

theorem Ok.switch {s : Session} (h : s.Ok) :
    ({ s with disk := (s.db.switch s.disk).1, db := (s.db.switch s.disk).2 } : Session).Ok where
  logs := h.logs.switch s.disk
  active := ⟨[], by
    show (s.disk.wals.write s.db.nextFile []).read s.db.nextFile = some []
    rw [Files.read_write, if_pos rfl]⟩
  kept p hp := by
    refine (h.kept p hp).imp_left ?_
    rintro ⟨data, hread, hmem⟩
    refine ⟨data, ?_, hmem⟩
    show (s.disk.wals.write s.db.nextFile []).read p.1 = some data
    rw [Files.read_write, if_neg (Nat.ne_of_lt (h.numbers p hp)), hread]
  numbers p hp := Nat.lt_succ_of_lt (h.numbers p hp)

theorem Ok.write {s : Session} (h : s.Ok) {w : Write} (hclean : Clean s.log)
    (hfits : (s.next w).Fits) :
    ({ s with
      disk := s.disk.appendWal s.db.walNumber (walRecord (s.next w))
      db := { s.db with lastSeq := (s.next w).seqno, mem := s.db.mem.add (s.next w) }
      acked := s.acked ++ [(s.db.walNumber, s.next w)] } : Session).Ok where
  logs := ⟨h.logs.running, h.logs.older, h.logs.number⟩
  active := ⟨s.log ++ walRecord (s.next w), by
    show (s.disk.appendWal _ _).wals.read s.db.walNumber = _
    rw [read_appendWal, if_pos rfl]
    rfl⟩
  kept p hp := by
    cases mem_append.mp hp with
    | inl hold => exact (h.kept p hold).append s.db.walNumber _
    | inr hnew =>
      cases mem_singleton.mp hnew
      refine .inl ⟨s.log ++ walRecord (s.next w), ?_, mem_recoverWal_record hclean hfits⟩
      show (s.disk.appendWal _ _).wals.read s.db.walNumber = _
      rw [read_appendWal, if_pos rfl]
      rfl
  numbers p hp := by
    cases mem_append.mp hp with
    | inl hold => exact h.numbers p hold
    | inr hnew =>
      cases mem_singleton.mp hnew
      exact h.logs.number

theorem Ok.steps {s : Session} (h : s.Ok) {disk : Disk} {db : Db}
    (hsteps : Db.Steps s.disk disk s.db db) :
    ({ s with
      disk := disk
      db := db
      removed := s.removed ++ s.disk.wals.numbers.filter (· ∉ disk.wals.numbers) } : Session).Ok := by
  -- what was read is read, unless it has gone
  have hread : ∀ {n data}, s.disk.wals.read n = some data → disk.wals.read n = some data ∨
        (n ∈ s.disk.wals.numbers.filter (· ∉ disk.wals.numbers) ∧ n ≠ s.db.walNumber) := by
    intro n data hdata
    cases hsteps.wals with
    | inl hsame => exact .inl (by rw [hsame, hdata])
    | inr hgone =>
      obtain ⟨m, hm, hremove⟩ := hgone
      by_cases hnm : n = m
      · right
        subst hnm
        refine ⟨mem_filter.mpr ⟨?_, ?_⟩, Nat.ne_of_lt (h.logs.older n hm)⟩
        · by_contra hnot
          rw [Files.read_eq_none.mpr hnot] at hdata
          cases hdata
        · rw [hremove]
          simp [Files.numbers, Files.remove]
      · left
        rw [hremove, Files.read_remove_of_ne _ hnm, hdata]
  refine ⟨hsteps.logs h.logs, ?_, fun p hp => ?_, fun p hp => ?_⟩
  · obtain ⟨data, hdata⟩ := h.active
    refine ⟨data, ?_⟩
    show disk.wals.read db.walNumber = some data
    rw [hsteps.number]
    exact (hread hdata).resolve_right fun hgone => hgone.2 rfl
  · cases h.kept p hp with
    | inr hgone => exact .inr (mem_append_left _ hgone)
    | inl hkept =>
      obtain ⟨data, hdata, hmem⟩ := hkept
      cases hread hdata with
      | inl hsame => exact .inl ⟨data, hsame, hmem⟩
      | inr hgone => exact .inr (mem_append_right _ hgone.1)
  · exact (h.numbers p hp).trans_le hsteps.nextFile

/-- The invariant of a session, over one call or one step of the background thread. -/
theorem ok_step (s : Session) (e : Event) (s' : Session) (h : s.Ok) (hsound : s.Sound e)
    (hstep : step opts s e = some s') : s'.Ok := by
  cases e with
  | call w append =>
    cases append with
    | done =>
      simp only [step] at hstep
      split at hstep
      · cases hstep
        have hwritten := h.write hsound.1 hsound.2
        unfold Db.write
        dsimp only
        split
        · exact hwritten.switch
        · exact hwritten
      · cases hstep
    | failed size =>
      simp only [step] at hstep
      split at hstep
      · cases hstep
        refine ⟨h.logs, ⟨s.log ++ (walRecord (s.next w)).take size, ?_⟩, fun p hp => ?_, h.numbers⟩
        · show (s.disk.appendWal _ _).wals.read s.db.walNumber = _
          rw [read_appendWal, if_pos rfl]
          rfl
        · exact (h.kept p hp).append s.db.walNumber _
      · cases hstep
  | act a =>
    simp only [step] at hstep
    split at hstep
    case h_1 disk db hadv =>
      cases hstep
      cases Db.advance_logs h.logs.running hadv with
      | inl hsteps => exact h.steps hsteps
      | inr hswitch =>
        have hok := h.switch
        cases hswitch
        refine ⟨hok.logs, hok.active, fun p hp => ?_, hok.numbers⟩
        exact (hok.kept p hp).imp_right fun hgone => mem_append_left _ hgone
    case h_2 => cases hstep

end Session

theorem Session.removed_step {opts : Options} (s : Session) (e : Session.Event) (s' : Session)
    (h : s.removed = []) (hcall : ∀ a, e ≠ .act a) (hstep : Session.step opts s e = some s') :
    s'.removed = [] := by
  cases e with
  | call w append =>
    cases append with
    | done =>
      simp only [Session.step] at hstep
      split at hstep <;> cases hstep
      exact h
    | failed size =>
      simp only [Session.step] at hstep
      split at hstep <;> cases hstep
      exact h
  | act a => exact absurd rfl (hcall a)

/-- **Acknowledged writes are recovered** as long as every acknowledged record goes behind whole
records.  Failed appends before it have left nothing in its log; behind it there may be any
remains. -/
theorem acknowledged_recovered {opts : Options} {s s' : Session} {events : List Session.Event}
    (hopened : s.Opened)
    (hsound : Machine.Along (Session.step opts) Session.Sound s events)
    (hrun : Machine.run (Session.step opts) s events = some s') :
    (∀ p ∈ s'.acked, s'.Recovered p ∨ p.1 ∈ s'.removed) ∧
    ((∀ e ∈ events, ∀ a, e ≠ .act a) → ∀ p ∈ s'.acked, s'.Recovered p) := by
  have hkept := (Machine.run_induction Session.ok_step hopened.ok hsound hrun).kept
  refine ⟨hkept, fun hcalls p hp => ?_⟩
  have hremoved : s'.removed = [] :=
    Machine.run_induction Session.removed_step hopened.removed
      (Machine.along_of_forall hcalls s) hrun
  refine (hkept p hp).resolve_right fun hgone => ?_
  rw [hremoved] at hgone
  cases hgone

/-! ## A write behind the remains of another. -/

def Session.fresh : Session where
  disk := { wals := [(1, [])] }
  db := { nextFile := 2, walNumber := 1, stage := .idle }

theorem Session.fresh_opened : Session.fresh.Opened :=
  ⟨rfl, rfl, by decide, rfl, rfl, rfl⟩

/-- Two appends fail, one of them before a byte is written. -/
def emptyFailure : List Session.Event :=
  [.call (.put [107] [118]) (.failed 0), .call (.put [108] [119]) .done,
    .call (.delete [107]) (.failed 3)]

theorem acknowledged_recovered_afterEmptyFailure :
    ∃ s', Machine.run (Session.step {}) Session.fresh emptyFailure = some s' ∧
      s'.acked = [(1, ⟨[108], 1, .put, [119]⟩)] ∧ ∀ p ∈ s'.acked, s'.Recovered p := by
  obtain ⟨s', hrun, hacked⟩ : ∃ s',
      Machine.run (Session.step {}) Session.fresh emptyFailure = some s' ∧
        s'.acked = [(1, ⟨[108], 1, .put, [119]⟩)] := by decide +kernel
  have hsound : Machine.Along (Session.step {}) Session.Sound Session.fresh emptyFailure := by
    decide +kernel
  refine ⟨s', hrun, hacked, ?_⟩
  exact (acknowledged_recovered Session.fresh_opened hsound hrun).2 (by simp [emptyFailure])

/-- **A write that is lost**: the first append fails behind one byte, the second is acknowledged,
and recovery stops at that byte. -/
theorem append_error_loses_acknowledged :
    ∃ s', Machine.run (Session.step {}) Session.fresh
        [.call (.put [107] [118]) (.failed 1), .call (.put [108] [119]) .done] = some s' ∧
      s'.acked = [(1, ⟨[108], 1, .put, [119]⟩)] ∧ s'.removed = [] ∧
      ∀ p ∈ s'.acked, ¬ s'.Recovered p := by
  obtain ⟨s', hrun, hacked, hremoved, hnone⟩ : ∃ s', Machine.run (Session.step {}) Session.fresh
      [.call (.put [107] [118]) (.failed 1), .call (.put [108] [119]) .done] = some s' ∧
        s'.acked = [(1, ⟨[108], 1, .put, [119]⟩)] ∧ s'.removed = [] ∧
        (recoverWal ((s'.disk.wals.read 1).getD [])).1 = [] := by decide +kernel
  refine ⟨s', hrun, hacked, hremoved, fun p hp hrec => ?_⟩
  rw [hacked] at hp
  cases mem_singleton.mp hp
  obtain ⟨data, hread, hmem⟩ := hrec
  rw [hread] at hnone
  rw [show (some data).getD [] = data from rfl] at hnone
  rw [hnone] at hmem
  cases hmem

end Flotilla.Storage
