/-
  Raft.CrashRecovery — `RaftStorage::Open` after a crash in a persist.

  The files of a storage are changed one at a time.  Each change takes files that
  stand for one storage to files that stand for another, so a crash between
  two of them leaves a storage that can be loaded, and so does an append that is
  cut: it has stored the first of its entries.  A snapshot of 2^32 bytes or more
  cannot be loaded, once its file is in place.
-/
import Flotilla.Raft.Disk

namespace Flotilla.Raft

open Storage

/-! ## How far an append came. -/

/-- The entry is read back, or its record is seen to be damaged. -/
def LogEntry.Legible (e : LogEntry) : Prop :=
  e.Fits ∨ ¬ logCodec.Passes e (logCodec.record e).length

/-- The entries whose records are begun when the append has written `size` bytes, or is done. -/
def begun (es : List LogEntry) : Nat → Nat → List LogEntry
  | 0, size => es.take (logCodec.whole es size + 1)
  | _ + 1, _ => es

/-- How many file operations of a persist come before the append. -/
def Ready.beforeAppend (ready : Ready) : Nat :=
  (if ready.snapshotToApply.isSome then 2 else 0) + if ready.truncateFrom ≠ 0 then 1 else 0

/-- A crash after `done` operations and `size` bytes of the next leaves no record of a new entry that
passes for another. -/
def Ready.Legible (ready : Ready) (done size : Nat) : Prop :=
  ready.beforeAppend ≤ done →
    ∀ e ∈ begun ready.entriesToAppend (done - ready.beforeAppend) size, e.Legible

/-! ## One file operation. -/

namespace Stores

variable {disk : Disk} {d : Storage} {es : List LogEntry}

theorem saveHardState {tail : Bytes} (h : Stores disk d tail) {hs : HardState} (hfits : hs.Fits) :
    Stores (disk.apply (.replaceState (encodeState hs))) (d.saveHardState hs) tail :=
  { h with
    state := .inl rfl
    hardFits := hfits }

theorem replaceSnap (h : Stores disk d []) {snap : Snapshot} (hfits : snap.Fits)
    (hle : d.snap.lastIndex ≤ snap.lastIndex) :
    Stores (disk.apply (.replaceSnap (encodeSnap snap)))
      { d with
        snap := snap
        entries := d.entries.filter fun e => decide (snap.lastIndex < e.index) } [] := by
  obtain ⟨hsplit, habove⟩ := h.contiguous.split_above hle
  obtain ⟨covered, hlog, hcov⟩ := h.log
  have hcov' : ∀ e ∈ covered ++ d.entries.takeWhile (fun e => decide (e.index ≤ snap.lastIndex)),
      e.index ≤ snap.lastIndex ∧ e.Fits := by
    intro e he
    rcases mem_append.mp he with hc | hc
    · exact ⟨(hcov e hc).1.trans hle, (hcov e hc).2⟩
    · have hindex := List.mem_takeWhile_imp hc
      exact ⟨of_decide_eq_true hindex, h.entriesFit e ((List.takeWhile_sublist _).mem hc)⟩
  have hlog' : disk.log.getD [] =
      logCodec.records ((covered ++ d.entries.takeWhile fun e => decide (e.index ≤ snap.lastIndex)) ++
        d.entries.filter fun e => decide (snap.lastIndex < e.index)) ++ [] := by
    rw [hlog, append_assoc covered, ← hsplit]
  exact
    { h with
      snap := .inl rfl
      log := ⟨_, hlog', hcov'⟩
      snapFits := hfits
      entriesFit := fun e he => h.entriesFit e (mem_of_mem_filter he)
      contiguous := habove }

theorem replaceLog (h : Stores disk d []) (hes : Contiguous d.snap.lastIndex es)
    (hfits : ∀ e ∈ es, e.Fits) :
    Stores (disk.apply (.replaceLog (logCodec.records es))) { d with entries := es } [] :=
  { h with
    log := ⟨[], (append_nil _).symm, nofun⟩
    entriesFit := hfits
    contiguous := hes }

section

variable (h : Stores disk d []) (hes : Contiguous (d.snap.lastIndex + d.entries.length) es)

include h hes

theorem appendLog (hfits : ∀ e ∈ es, e.Fits) {tail : Bytes}
    (htail : logCodec.readRecord tail = none) :
    Stores (disk.apply (.appendLog (logCodec.records es ++ tail))) (d.append es) tail := by
  obtain ⟨covered, hlog, hcov⟩ := h.log
  have hlog' : disk.log.getD [] ++ (logCodec.records es ++ tail) =
      logCodec.records (covered ++ (d.entries ++ es)) ++ tail := by
    rw [hlog, append_nil, ← append_assoc, ← Codec.records_append, append_assoc]
  exact
    { h with
      log := ⟨covered, hlog', hcov⟩
      torn := htail
      entriesFit := fun e he => (mem_append.mp he).elim (h.entriesFit e) (hfits e)
      contiguous := Contiguous.append_iff.mpr ⟨h.contiguous, hes⟩ }

/-- An append that is cut has stored the first of its entries. -/
theorem appendTorn {size : Nat} (hlegible : ∀ e ∈ begun es 0 size, e.Legible) : ∃ j tail,
    Stores (disk.apply (.appendLog ((logCodec.records es).take size)))
      (d.append (es.take j)) tail := by
  obtain ⟨j, tail, htail, hfits, hnone⟩ :=
    Codec.take_records_legible (fun _ => LogEntry.Fits.codec) hlegible
  refine ⟨j, tail, ?_⟩
  rw [htail]
  exact h.appendLog (hes.take j) hfits hnone

/-- So has one that is done, with a record that cannot be read among its entries. -/
theorem appendDone (hlegible : ∀ e ∈ es, e.Legible) : ∃ j tail,
    Stores (disk.apply (.appendLog (logCodec.records es))) (d.append (es.take j)) tail := by
  obtain ⟨j, tail, hstores⟩ := @appendTorn _ _ _ h hes (logCodec.records es).length
    fun e he => hlegible e (mem_of_mem_take he)
  rw [take_length] at hstores
  exact ⟨j, tail, hstores⟩

end

end Stores

/-! ## A sequence of file operations. -/

/-- Wherever the operations stop with `R`, the files stand for a storage with `P`, which may depend
on how many of them are done. -/
def Survives (R : Nat → Nat → Prop) (P : Nat → Storage → Prop) (disk : Disk) (ops : List FileOp) :
    Prop :=
  ∀ done size, R done size → ∃ d tail, Stores (disk.crash ops done size) d tail ∧ P done d

namespace Survives

variable {R R' : Nat → Nat → Prop} {P Q : Nat → Storage → Prop} {disk : Disk} {d : Storage}
  {tail : Bytes} {op : FileOp} {ops : List FileOp}

theorem nil (h : Stores disk d tail) (hp : ∀ k, P k d) : Survives R P disk [] :=
  fun done _ _ => ⟨d, tail, h, hp done⟩

theorem mono (h : Survives R P disk ops) (hr : ∀ k size, R' k size → R k size)
    (hpq : ∀ k d, P k d → Q k d) : Survives R' Q disk ops := by
  intro done size hr'
  obtain ⟨d, tail, hd, hp⟩ := h done size (hr done size hr')
  exact ⟨d, tail, hd, hpq done d hp⟩

theorem replace (hop : ∀ size, disk.torn size op = disk) (h : Stores disk d tail) (hp : P 0 d)
    (hrest : Survives (fun k => R (k + 1)) (fun k => P (k + 1)) (disk.apply op) ops) :
    Survives R P disk (op :: ops) := by
  intro done size hr
  cases done with
  | zero =>
    show ∃ d tail, Stores (disk.torn size op) d tail ∧ P 0 d
    rw [hop size]
    exact ⟨d, tail, h, hp⟩
  | succ done => exact hrest done size hr

end Survives

/-! ## `Persist`. -/

namespace Storage

/-- The storage once the snapshot of a `Ready` is saved. -/
def installed (d : Storage) : Option Snapshot → Storage
  | some snap => d.saveSnapshot snap true
  | none => d

/-- The storage once the entries from `truncate_from` on are gone. -/
def cut (d : Storage) (index : Nat) : Storage :=
  if index ≠ 0 then d.truncateFrom index else d

theorem persist_eq (d : Storage) (ready : Ready) :
    d.persist ready =
      if ready.hardStateChanged then
        (((d.installed ready.snapshotToApply).cut ready.truncateFrom).append
          ready.entriesToAppend).saveHardState ready.hardState
      else ((d.installed ready.snapshotToApply).cut ready.truncateFrom).append
        ready.entriesToAppend := by
  unfold persist installed cut
  cases ready.snapshotToApply <;> rfl

theorem cut_snap (d : Storage) (index : Nat) : (d.cut index).snap = d.snap := by
  unfold cut
  split <;> rfl

theorem cut_hard (d : Storage) (index : Nat) : (d.cut index).hard = d.hard := by
  unfold cut
  split <;> rfl

theorem cut_isPrefix (d : Storage) (index : Nat) : (d.cut index).entries <+: d.entries := by
  unfold cut
  split
  · exact List.rdropWhile_prefix _ _
  · exact prefix_rfl

end Storage

theorem Stores.truncate {disk : Disk} {d : Storage} (h : Stores disk d []) (index : Nat) :
    Stores ((d.truncateOps index).foldl Disk.apply disk) (d.cut index) [] := by
  unfold truncateOps Storage.cut
  split
  · apply h.replaceLog (h.contiguous.rdropWhile _)
    intro e he
    exact h.entriesFit e ((List.rdropWhile_prefix _ _).subset he)
  · exact h

/-- A `Ready` that follows on `d`: its numbers fit their fields, its snapshot is not older, and its
entries begin where the log, once cut, ends. -/
structure Ready.Follows (ready : Ready) (d : Storage) : Prop where
  hard : ready.hardStateChanged = true → ready.hardState.Fits
  snap : ∀ snap, ready.snapshotToApply = some snap →
    snap.lastIndex < 2 ^ 64 ∧ snap.lastTerm < 2 ^ 64 ∧ d.snap.lastIndex ≤ snap.lastIndex
  entries :
    let start := (d.installed ready.snapshotToApply).cut ready.truncateFrom
    Contiguous (start.snap.lastIndex + start.entries.length) ready.entriesToAppend

/-- A `Ready` that can be persisted on `d`, and read back. -/
structure Ready.Fits (ready : Ready) (d : Storage) : Prop extends ready.Follows d where
  data : ∀ snap, ready.snapshotToApply = some snap → snap.data.length < 2 ^ 32
  commands : ∀ e ∈ ready.entriesToAppend, e.Fits

section Persist

variable {disk : Disk} {d : Storage} {tail : Bytes} {ready : Ready}
  (hfits : ready.hardStateChanged = true → ready.hardState.Fits)

include hfits

theorem survives_hardState (h : Stores disk d tail) :
    Survives (fun _ _ => True) (fun _ d' => d' = d ∨
      ready.hardStateChanged = true ∧ d' = d.saveHardState ready.hardState) disk
      (Storage.hardStateOps ready) := by
  unfold hardStateOps
  split
  · rename_i hchanged
    apply Survives.replace (fun _ => rfl) h (.inl rfl)
    exact Survives.nil (h.saveHardState (hfits hchanged)) fun _ => .inr ⟨hchanged, rfl⟩
  · exact Survives.nil h fun _ => .inl rfl

theorem survives_append (h : Stores disk d [])
    (hfollows : Contiguous (d.snap.lastIndex + d.entries.length) ready.entriesToAppend) :
    Survives (fun done size => ∀ e ∈ begun ready.entriesToAppend done size, e.Legible)
      (fun _ d' => (d'.hard = d.hard ∨
          ready.hardStateChanged = true ∧ d'.hard = ready.hardState) ∧ d'.snap = d.snap ∧
        ∃ j, d'.entries = d.entries ++ ready.entriesToAppend.take j) disk
      (Storage.appendOps ready.entriesToAppend ++ Storage.hardStateOps ready) := by
  unfold appendOps
  split
  · apply (survives_hardState hfits h).mono fun _ _ _ => trivial
    rintro _ d' (rfl | ⟨hchanged, rfl⟩)
    · exact ⟨.inl rfl, rfl, 0, (append_nil _).symm⟩
    · exact ⟨.inr ⟨hchanged, rfl⟩, rfl, 0, (append_nil _).symm⟩
  · intro done size hlegible
    cases done with
    | zero =>
      obtain ⟨j, tail, hd⟩ := h.appendTorn hfollows hlegible
      exact ⟨_, tail, hd, .inl rfl, rfl, j, rfl⟩
    | succ done =>
      obtain ⟨j, tail, hd⟩ := h.appendDone hfollows hlegible
      obtain ⟨d', tail', hd', rfl | ⟨hchanged, rfl⟩⟩ := survives_hardState hfits hd done size trivial
      · exact ⟨_, tail', hd', .inl rfl, rfl, j, rfl⟩
      · exact ⟨_, tail', hd', .inr ⟨hchanged, rfl⟩, rfl, j, rfl⟩

theorem survives_persist (h : Stores disk d [])
    (hfollows : Contiguous (d.snap.lastIndex + (d.cut ready.truncateFrom).entries.length)
      ready.entriesToAppend) :
    Survives (fun done size => (if ready.truncateFrom ≠ 0 then 1 else 0) ≤ done →
        ∀ e ∈ begun ready.entriesToAppend (done - if ready.truncateFrom ≠ 0 then 1 else 0) size,
          e.Legible)
      (fun _ d' => (d'.hard = d.hard ∨
          ready.hardStateChanged = true ∧ d'.hard = ready.hardState) ∧ d'.snap = d.snap ∧
        (d'.entries = d.entries ∨ ∃ j, d'.entries =
          (d.cut ready.truncateFrom).entries ++ ready.entriesToAppend.take j)) disk
      (d.truncateOps ready.truncateFrom ++
        (Storage.appendOps ready.entriesToAppend ++ Storage.hardStateOps ready)) := by
  have hsnap := d.cut_snap ready.truncateFrom
  have hhard := d.cut_hard ready.truncateFrom
  have hcutOk := h.truncate ready.truncateFrom
  rw [← hsnap] at hfollows
  unfold truncateOps at hcutOk ⊢
  split
  · rename_i hcut
    rw [if_pos hcut] at hcutOk
    apply Survives.replace (fun _ => rfl) h ⟨.inl rfl, rfl, .inl rfl⟩
    apply (survives_append hfits hcutOk hfollows).mono
    · exact fun k size hlegible => hlegible (Nat.le_add_left 1 k)
    · rintro _ d' ⟨hd', hsnap', hentries⟩
      exact ⟨hhard ▸ hd', hsnap'.trans hsnap, .inr hentries⟩
  · rename_i hcut
    rw [if_neg hcut] at hcutOk
    rw [nil_append]
    apply (survives_append hfits hcutOk hfollows).mono
    · exact fun k size hlegible => hlegible (Nat.zero_le k)
    · rintro _ d' ⟨hd', hsnap', hentries⟩
      exact ⟨hhard ▸ hd', hsnap'.trans hsnap, .inr hentries⟩

end Persist

/-! ## A persist that is completed. -/

namespace Stores

variable {disk : Disk} {d : Storage}

theorem saveSnapshot (h : Stores disk d []) {snap : Snapshot} (hfits : snap.Fits)
    (hle : d.snap.lastIndex ≤ snap.lastIndex) :
    Stores ((d.saveSnapshotOps snap false).foldl Disk.apply disk) (d.saveSnapshot snap false) [] := by
  have hreplaced := h.replaceSnap hfits hle
  rw [← h.contiguous.dropWhile_eq hle] at hreplaced
  exact hreplaced.replaceLog hreplaced.contiguous hreplaced.entriesFit

theorem appendAll (h : Stores disk d []) {es : List LogEntry}
    (hes : Contiguous (d.snap.lastIndex + d.entries.length) es) (hfits : ∀ e ∈ es, e.Fits) :
    Stores ((Storage.appendOps es).foldl Disk.apply disk) (d.append es) [] := by
  unfold appendOps
  split
  · rename_i hnil
    have hsame : d.append es = d := by
      unfold Storage.append
      rw [hnil, append_nil]
    rw [hsame]
    exact h
  · have happended := h.appendLog hes hfits Codec.readRecord_nil
    rw [append_nil] at happended
    exact happended

theorem persist (h : Stores disk d []) {ready : Ready} (hready : ready.Fits d) :
    Stores ((d.persistOps ready).foldl Disk.apply disk) (d.persist ready) [] := by
  have hrest : ∀ disk', Stores disk' (d.installed ready.snapshotToApply) [] →
      Stores (((d.installed ready.snapshotToApply).truncateOps ready.truncateFrom ++
        (appendOps ready.entriesToAppend ++ hardStateOps ready)).foldl Disk.apply
          disk') (d.persist ready) [] := by
    intro disk' hinstalled
    have happended := (hinstalled.truncate ready.truncateFrom).appendAll hready.entries hready.commands
    rw [foldl_append, foldl_append, Storage.persist_eq]
    unfold hardStateOps
    split
    · rename_i hchanged
      exact happended.saveHardState (hready.hard hchanged)
    · exact happended
  unfold persistOps
  cases hsnap : ready.snapshotToApply with
  | none =>
    rw [hsnap] at hrest
    exact hrest disk h
  | some snap =>
    obtain ⟨hindex, hterm, hle⟩ := hready.snap snap hsnap
    have hfits : snap.Fits := ⟨hindex, hterm, hready.data snap hsnap⟩
    have hempty := @Stores.replaceLog _ _ [] (h.replaceSnap hfits hle) trivial nofun
    rw [hsnap] at hrest
    rw [foldl_append]
    exact hrest _ hempty

end Stores

/-! ## A snapshot that is too long. -/

theorem decodeSnap_long {snap : Snapshot} (h : 2 ^ 32 ≤ snap.data.length) :
    decodeSnap (encodeSnap snap) = none := by
  suffices hrest : (((Decoder.mk (encodeSnap snap) false).u64.2.u64.2.lengthPrefixed.2).u32.2).remaining
      ≠ 0 by
    unfold decodeSnap
    exact if_pos (.inr (.inl hrest))
  obtain ⟨crc, hcrc⟩ : ∃ crc, encodeSnap snap = putFixed64 snap.lastIndex ++
      (putFixed64 snap.lastTerm ++ (putLengthPrefixed snap.data ++ putFixed32 crc)) := by
    unfold encodeSnap
    rw [append_assoc, append_assoc]
    exact ⟨_, rfl⟩
  have hindex (rest : Bytes) : (Decoder.mk (putFixed64 snap.lastIndex ++ rest) false).u64.2 =
      ⟨rest, false⟩ := congrArg Prod.snd (Decoder.fixed_putFixed 8 snap.lastIndex rest)
  have hterm (rest : Bytes) : (Decoder.mk (putFixed64 snap.lastTerm ++ rest) false).u64.2 =
      ⟨rest, false⟩ := congrArg Prod.snd (Decoder.fixed_putFixed 8 snap.lastTerm rest)
  rw [hcrc, hindex, hterm, Decoder.lengthPrefixed_long h]
  unfold Decoder.u32 Decoder.fixed Decoder.bytes Decoder.remaining
  split
  all_goals
    simp only [length_drop, length_append, length_putFixed32]
    omega

theorem Disk.load_long {disk : Disk} {snap : Snapshot} (hdisk : disk.snap = some (encodeSnap snap))
    (h : 2 ^ 32 ≤ snap.data.length) : disk.load = none := by
  have hnone := decodeSnap_long h
  unfold Disk.load
  rw [hdisk]
  dsimp only
  rw [hnone]
  exact Option.bind_fun_none _

theorem Disk.crash_snap {ops : List FileOp} (h : ∀ op ∈ ops, ∀ data, op ≠ .replaceSnap data)
    (disk : Disk) (done size : Nat) : (disk.crash ops done size).snap = disk.snap := by
  induction ops generalizing disk done with
  | nil => rfl
  | cons op ops ih =>
    have hop : ∀ size, (disk.apply op).snap = disk.snap ∧ (disk.torn size op).snap = disk.snap := by
      intro size
      cases op with
      | replaceSnap data => exact absurd rfl (h _ mem_cons_self data)
      | replaceState data | replaceLog data | appendLog data => exact ⟨rfl, rfl⟩
    cases done with
    | zero => exact (hop size).2
    | succ done =>
      show ((disk.apply op).crash ops done size).snap = _
      rw [ih (fun op' hop' => h op' (mem_cons_of_mem op hop')), (hop size).1]

/-- Once the file of a snapshot that is too long is in place, nothing can be loaded. -/
theorem Disk.load_crash_long {snap : Snapshot} {ops : List FileOp}
    (hops : ∀ op ∈ ops, ∀ data, op ≠ .replaceSnap data) (h : 2 ^ 32 ≤ snap.data.length)
    (disk : Disk) {done : Nat} (hdone : 0 < done) (size : Nat) :
    (disk.crash (.replaceSnap (encodeSnap snap) :: ops) done size).load = none := by
  obtain ⟨k, rfl⟩ : ∃ k, done = k + 1 := ⟨done - 1, by omega⟩
  apply Disk.load_long _ h
  show ((disk.apply _).crash ops k size).snap = _
  rw [Disk.crash_snap hops]
  rfl

theorem Storage.persistOps_rest (d : Storage) (ready : Ready) : ∀ op ∈ d.rewriteLog ::
    (d.truncateOps ready.truncateFrom ++ (appendOps ready.entriesToAppend ++ hardStateOps ready)),
    ∀ data, op ≠ .replaceSnap data := by
  intro op hop data
  unfold rewriteLog truncateOps appendOps hardStateOps at hop
  rintro rfl
  split_ifs at hop <;> simp [rewriteLog] at hop

/-! ## Recovery. -/

/-- The entries of `d'` after a crash: old ones or their cut, with some new ones behind, as far as
the snapshot does not cover them; or, once a new snapshot has emptied the log, only new ones. -/
def RecoveredEntries (d : Storage) (ready : Ready) (done : Nat) (d' : Storage) : Prop :=
  (∃ es, (es = d.entries ∨ es = (d.cut ready.truncateFrom).entries ∨
      ∃ j, es = (d.cut ready.truncateFrom).entries ++ ready.entriesToAppend.take j) ∧
    d'.entries = es.filter fun e => decide (d'.snap.lastIndex < e.index)) ∨
  (ready.snapshotToApply.isSome = true ∧ 2 ≤ done ∧ ∃ j, d'.entries = ready.entriesToAppend.take j)

section Recovery

variable {disk : Disk} {d : Storage}

theorem Contiguous.filter_self {base : Nat} {es : List LogEntry} (h : Contiguous base es) :
    es.filter (fun e => decide (base < e.index)) = es :=
  filter_eq_self.mpr fun _ he => decide_eq_true (h.index_mem he).1

theorem survives_persistOps (h : Stores disk d []) {ready : Ready} (hready : ready.Follows d) :
    Survives (fun done size => ready.Legible done size ∧ ∀ snap, ready.snapshotToApply = some snap →
        0 < done → snap.data.length < 2 ^ 32)
      (fun done d' => (d'.hard = d.hard ∨ d'.hard = (d.persist ready).hard) ∧
        (d'.snap = d.snap ∨ d'.snap = (d.installed ready.snapshotToApply).snap) ∧
        (Contiguous d'.snap.lastIndex d'.entries → RecoveredEntries d ready done d')) disk
      (d.persistOps ready) := by
  have hhard : ∀ d' : Storage, (d'.hard = d.hard ∨
      ready.hardStateChanged = true ∧ d'.hard = ready.hardState) →
      d'.hard = d.hard ∨ d'.hard = (d.persist ready).hard := by
    intro d' hd'
    rw [persist_hard]
    rcases hd' with hold | ⟨hchanged, hnew⟩
    · exact .inl hold
    · rw [if_pos hchanged]
      exact .inr hnew
  have hfollows := hready.entries
  dsimp only at hfollows
  rw [Storage.cut_snap] at hfollows
  unfold persistOps Ready.Legible Ready.beforeAppend
  cases hsnap : ready.snapshotToApply with
  | none =>
    rw [hsnap] at hfollows
    apply (survives_persist hready.hard h hfollows).mono
    · intro done size hr
      simpa using hr.1
    rintro done d' ⟨hd', hold, hentries⟩
    refine ⟨hhard d' hd', .inl hold, fun hcontiguous => .inl ?_⟩
    have hself := hcontiguous.filter_self
    rcases hentries with hentries | ⟨j, hentries⟩
    · exact ⟨d.entries, .inl rfl, by rw [← hentries, hself]⟩
    · exact ⟨_, .inr (.inr ⟨j, rfl⟩), by rw [← hentries, hself]⟩
  | some snap =>
    obtain ⟨hindex, hterm, hle⟩ := hready.snap snap hsnap
    -- neither file is replaced
    apply Survives.replace (fun _ => rfl) h
    · exact ⟨.inl rfl, .inl rfl, fun hcontiguous =>
        .inl ⟨d.entries, .inl rfl, hcontiguous.filter_self.symm⟩⟩
    intro done size hr
    have hfits : snap.Fits := ⟨hindex, hterm, hr.2 snap rfl (Nat.succ_pos done)⟩
    have hreplaced := h.replaceSnap hfits hle
    have hempty := @Stores.replaceLog _ _ [] hreplaced trivial nofun
    revert done size
    -- the snapshot is replaced, the log is the old one
    apply Survives.replace (fun _ => rfl) hreplaced
    · exact ⟨.inl rfl, .inr rfl, fun _ => .inl ⟨d.entries, .inl rfl, rfl⟩⟩
    rw [hsnap] at hfollows
    apply (survives_persist (d := d.saveSnapshot snap true) hready.hard hempty hfollows).mono
    · intro done size hr hle
      have hlegible := hr.1
      rw [Option.isSome_some, if_pos rfl, Nat.add_comm 2, Nat.add_assoc done 1 1,
        Nat.add_sub_add_right] at hlegible
      exact hlegible (Nat.add_le_add_right hle 2)
    rintro done d' ⟨hd', hnew, hentries⟩
    refine ⟨hhard d' hd', .inr hnew, fun _ => .inr ⟨by rw [hsnap]; rfl, by omega, ?_⟩⟩
    have hnil : ((d.saveSnapshot snap true).cut ready.truncateFrom).entries = [] :=
      List.prefix_nil.mp (Storage.cut_isPrefix _ _)
    rcases hentries with hentries | ⟨j, hentries⟩
    · exact ⟨0, hentries⟩
    · rw [hnil] at hentries
      exact ⟨j, hentries⟩

theorem survives_saveSnapshotOps (h : Stores disk d []) {snap : Snapshot}
    (hindex : snap.lastIndex < 2 ^ 64) (hterm : snap.lastTerm < 2 ^ 64)
    (hle : d.snap.lastIndex ≤ snap.lastIndex) :
    Survives (fun done _ => 0 < done → snap.data.length < 2 ^ 32)
      (fun _ d' => d'.hard = d.hard ∧ (d'.snap = d.snap ∨ d'.snap = snap) ∧
        d'.entries = d.entries.filter fun e => decide (d'.snap.lastIndex < e.index)) disk
      (d.saveSnapshotOps snap false) := by
  apply Survives.replace (fun _ => rfl) h ⟨rfl, .inl rfl, h.contiguous.filter_self.symm⟩
  intro done size hr
  have hreplaced := h.replaceSnap ⟨hindex, hterm, hr (Nat.succ_pos done)⟩ hle
  have hrest : (d.saveSnapshot snap false).entries =
      d.entries.filter fun e => decide (snap.lastIndex < e.index) := h.contiguous.dropWhile_eq hle
  have hrewritten := hreplaced.replaceLog hreplaced.contiguous hreplaced.entriesFit
  revert done size
  apply Survives.replace (fun _ => rfl) hreplaced ⟨rfl, .inr rfl, rfl⟩
  unfold rewriteLog
  rw [hrest]
  exact Survives.nil hrewritten fun _ => ⟨rfl, .inr rfl, rfl⟩

/-- **A crash at any point of a persist is survived** exactly if a snapshot of 2^32 bytes or more is
not yet in place: `Open` loads the old or the new hard state, the old or the new snapshot, and
entries that continue it; and files that stand for them remain. -/
theorem crash_recovers (h : Stores disk d []) (done size : Nat) :
    (∀ ready : Ready, ready.Follows d → ready.Legible done size →
      ((∃ d' disk', (disk.crash (d.persistOps ready) done size).load = some (d', disk') ∧
        Stores disk' d' [] ∧
        (d'.hard = d.hard ∨ d'.hard = (d.persist ready).hard) ∧
        (d'.snap = d.snap ∨ d'.snap = (d.installed ready.snapshotToApply).snap) ∧
        Contiguous d'.snap.lastIndex d'.entries ∧ RecoveredEntries d ready done d') ↔
      ∀ snap, ready.snapshotToApply = some snap → 0 < done → snap.data.length < 2 ^ 32)) ∧
    (∀ snap : Snapshot, snap.lastIndex < 2 ^ 64 → snap.lastTerm < 2 ^ 64 →
      d.snap.lastIndex ≤ snap.lastIndex → snap.lastIndex ≤ d.snap.lastIndex + d.entries.length →
      ((∃ d' disk', (disk.crash (d.saveSnapshotOps snap false) done size).load = some (d', disk') ∧
        Stores disk' d' [] ∧ d'.hard = d.hard ∧ (d'.snap = d.snap ∨ d'.snap = snap) ∧
        Contiguous d'.snap.lastIndex d'.entries ∧
        d'.entries = d.entries.filter fun e => decide (d'.snap.lastIndex < e.index)) ↔
      (0 < done → snap.data.length < 2 ^ 32))) := by
  constructor
  · intro ready hready hlegible
    constructor
    · rintro ⟨d', disk', hload, _⟩ snap hsnap hdone
      by_contra hlong
      have hnone := Disk.load_crash_long ((d.saveSnapshot snap true).persistOps_rest ready)
        (Nat.le_of_not_lt hlong) disk hdone size
      unfold persistOps at hload
      rw [hsnap] at hload
      cases hnone.symm.trans hload
    · intro hshort
      obtain ⟨d', tail, hd', hhard, hsnap, hentries⟩ :=
        survives_persistOps h hready done size ⟨hlegible, hshort⟩
      obtain ⟨disk', hload, hstores⟩ := hd'.load
      exact ⟨d', disk', hload, hstores, hhard, hsnap, hd'.contiguous, hentries hd'.contiguous⟩
  · intro snap hindex hterm hle _
    constructor
    · rintro ⟨d', disk', hload, _⟩ hdone
      by_contra hlong
      have hops : ∀ op ∈ [(d.saveSnapshot snap false).rewriteLog], ∀ data, op ≠ .replaceSnap data :=
        fun op hop data => by rw [mem_singleton.mp hop]; exact nofun
      have hnone := Disk.load_crash_long hops (Nat.le_of_not_lt hlong) disk hdone size
      cases hnone.symm.trans hload
    · intro hshort
      obtain ⟨d', tail, hd', hrest⟩ := survives_saveSnapshotOps h hindex hterm hle done size hshort
      obtain ⟨disk', hload, hstores⟩ := hd'.load
      exact ⟨d', disk', hload, hstores, hrest.1, hrest.2.1, hd'.contiguous, hrest.2.2⟩

end Recovery

theorem stores_empty : Stores {} {} [] where
  state := .inr ⟨rfl, rfl⟩
  snap := .inr ⟨rfl, rfl⟩
  log := ⟨[], rfl, nofun⟩
  torn := Codec.readRecord_nil
  hardFits := by decide
  snapFits := by decide
  entriesFit := nofun
  contiguous := trivial

def oneEntry : Storage := { entries := [⟨1, 1, [7]⟩] }

def oneEntryDisk : Disk := { log := some (logCodec.records [⟨1, 1, [7]⟩]) }

/-- The entry is replaced. -/
def conflict : Ready := { truncateFrom := 1, entriesToAppend := [⟨2, 1, [8]⟩] }

theorem stores_oneEntry : Stores oneEntryDisk oneEntry [] :=
  stores_empty.replaceLog (by decide) (by decide)

/-- A conflicting entry is replaced: a crash five bytes into the append of the new one. -/
theorem crash_recovers_conflict : ∃ d' disk',
    (oneEntryDisk.crash (oneEntry.persistOps conflict) 1 5).load = some (d', disk') ∧
      RecoveredEntries oneEntry conflict 1 d' := by
  have hready : conflict.Follows oneEntry :=
    { hard := fun hc => absurd hc Bool.false_ne_true
      snap := fun _ hc => nomatch hc
      entries := by decide }
  have hlegible : conflict.Legible 1 5 := by
    intro _ e he
    rw [mem_singleton.mp he]
    exact .inl (by decide)
  obtain ⟨d', disk', hload, _, _, _, _, hentries⟩ :=
    ((crash_recovers stores_oneEntry 1 5).1 _ hready hlegible).mpr fun _ hc => nomatch hc
  exact ⟨d', disk', hload, hentries⟩

/-- **A group that cannot be opened**: its own snapshot has 2^32 bytes, and the process stops when
the file is in place. -/
theorem crash_loses_snapshot : Stores oneEntryDisk oneEntry [] ∧
    ∃ snap : Snapshot, snap.lastIndex = 1 ∧ snap.lastTerm = 1 ∧ snap.data.length = 2 ^ 32 ∧
      (oneEntryDisk.crash (oneEntry.saveSnapshotOps snap false) 1 0).load = none := by
  refine ⟨stores_oneEntry, ?_⟩
  obtain ⟨data, hdata⟩ : ∃ data : Bytes, data.length = 2 ^ 32 :=
    ⟨List.replicate (2 ^ 32) 0, length_replicate⟩
  refine ⟨⟨1, 1, data⟩, rfl, rfl, hdata, ?_⟩
  exact Disk.load_long rfl (Nat.le_of_eq hdata.symm)

end Flotilla.Raft
