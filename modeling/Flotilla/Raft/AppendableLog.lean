/-
  Raft.AppendableLog — what is appended to a log that was loaded.

  `Load` cuts the log where it stops reading, so that what is appended later
  stands behind what was read.  One stop is different: a record whose index is
  too high is taken for a torn tail, but the cut comes behind it.
-/
import Flotilla.Raft.Disk

namespace Flotilla.Raft

/-- The loop of `Load` does not stop at an index that is too high. -/
def gapless : Nat → Nat → Bytes → Bool
  | 0, _, _ => true
  | fuel + 1, expect, data =>
      match logCodec.readRecord data with
      | none => true
      | some (e, size) =>
          if e.index < expect then gapless fuel expect (data.drop size)
          else if e.index ≠ expect then false
          else gapless fuel (expect + 1) (data.drop size)

/-! ## The loop, one round at a time. -/

theorem gapless_fuel {fuel fuel' expect : Nat} {data : Bytes} (h : data.length < fuel)
    (h' : data.length < fuel') : gapless fuel expect data = gapless fuel' expect data := by
  refine loop_fuel (fun {fuel fuel' expect data} hrest => ?_) h h'
  unfold gapless
  cases hread : logCodec.readRecord data with
  | none => rfl
  | some next => simp only [hrest next hread]

/-- No record of the log that the loop comes to has an index that is too high. -/
def Gapless (expect : Nat) (data : Bytes) : Prop := gapless (data.length + 1) expect data = true

instance (expect : Nat) (data : Bytes) : Decidable (Gapless expect data) :=
  inferInstanceAs (Decidable (_ = true))

section

variable {expect size : Nat} {data : Bytes} {e : LogEntry}
  (h : logCodec.readRecord data = some (e, size))

include h

theorem scanLog_gap (hgap : expect < e.index) :
    scanLog expect data = ([], size) := by
  unfold scanLog
  rw [loadLog, h]
  dsimp only
  rw [if_neg (by omega), if_pos (by omega)]

theorem gapless_rest :
    gapless data.length expect (data.drop size) = true ↔ Gapless expect (data.drop size) := by
  obtain ⟨hpos, hmax⟩ := readRecord_size h
  have hlen : (data.drop size).length = data.length - size := length_drop
  unfold Gapless
  rw [@gapless_fuel data.length ((data.drop size).length + 1) _ _ (by omega) (by omega)]

theorem gapless_covered (hcov : e.index < expect) :
    Gapless expect data ↔ Gapless expect (data.drop size) := by
  rw [← gapless_rest h, Gapless, gapless, h]
  dsimp only
  rw [if_pos hcov]

theorem gapless_next (hnext : e.index = expect) :
    Gapless expect data ↔ Gapless (expect + 1) (data.drop size) := by
  rw [← gapless_rest h, Gapless, gapless, h]
  dsimp only
  rw [if_neg (by omega), if_neg (by omega)]

theorem not_gapless (hgap : expect < e.index) :
    ¬ Gapless expect data := by
  rw [Gapless, gapless, h]
  dsimp only
  rw [if_neg (by omega), if_pos (by omega)]
  exact Bool.false_ne_true

end

/-! ## Records behind a loaded log. -/

/-- What stands behind a log that was read and cut is read in its turn, unless the cut left a record
with an index that is too high. -/
theorem scanLog_take_append (expect : Nat) (data rest : Bytes) :
    (scanLog expect (data.take (scanLog expect data).2 ++ rest)).1 =
      (scanLog expect data).1 ++ if Gapless expect data then
        (scanLog (expect + (scanLog expect data).1.length) rest).1 else [] := by
  induction hn : data.length using Nat.strong_induction_on generalizing data expect with
  | _ n ih =>
    cases hread : logCodec.readRecord data with
    | none =>
      have hgap : Gapless expect data := by
        rw [Gapless, gapless, hread]
      rw [scanLog_none hread, if_pos hgap]
      rfl
    | some next =>
      obtain ⟨e, size⟩ := next
      obtain ⟨hpos, hmax⟩ := readRecord_size hread
      have hlen : (data.drop size).length < n := by
        rw [length_drop]
        omega
      -- the record at the front is whole in the cut file as well
      have hkept : ∀ k, logCodec.readRecord (data.take (size + k) ++ rest) = some (e, size) :=
        fun k => Codec.readRecord_append (Codec.readRecord_take hread (Nat.le_add_right _ _)) rest
      have hdrop : ∀ k, (data.take (size + k) ++ rest).drop size =
          (data.drop size).take k ++ rest := by
        intro k
        have hlong : size ≤ (data.take (size + k)).length := by
          rw [length_take]
          omega
        rw [drop_append_of_le_length hlong, drop_take, Nat.add_sub_cancel_left]
      rcases Nat.lt_trichotomy e.index expect with hcov | hnext | hgap
      · have hrest := ih _ hlen expect _ rfl
        rw [scanLog_covered hread hcov, if_congr (gapless_covered hread hcov) rfl rfl]
        rw [scanLog_covered (hkept _) hcov, hdrop, hrest]
      · have hrest := ih _ hlen (expect + 1) _ rfl
        rw [scanLog_next hread hnext, if_congr (gapless_next hread hnext) rfl rfl]
        rw [scanLog_next (hkept _) hnext, hdrop, hrest, length_cons,
          cons_append, Nat.add_assoc, Nat.add_comm 1]
      · -- the record stays in the file, and the loop stops there again
        rw [scanLog_gap hread hgap, if_neg (not_gapless hread hgap)]
        exact congrArg Prod.fst (scanLog_gap (hkept 0) hgap)

theorem length_of_decodeLogPayload {p : Bytes} {e : LogEntry} (h : decodeLogPayload p = some e) :
    20 + e.command.length = p.length := by
  unfold decodeLogPayload at h
  dsimp only at h
  split at h
  · cases h
  · rename_i hok
    cases h
    have hend : (Decoder.mk p false).u64.2.u64.2.lengthPrefixed.2.failed = false ∧
        (Decoder.mk p false).u64.2.u64.2.lengthPrefixed.2.rest.length = 0 := by
      simpa [Decoder.ok, Decoder.remaining] using hok
    obtain ⟨h3, hcommand, _⟩ := Decoder.bytes_ok hend.1
    obtain ⟨h2, hlen, h2'⟩ := Decoder.bytes_ok h3
    obtain ⟨h1, hindex, h1'⟩ := Decoder.bytes_ok h2
    obtain ⟨_, hterm, h0'⟩ := Decoder.bytes_ok h1
    show 20 + (Decoder.lengthPrefixed _).1.length = _
    unfold Decoder.lengthPrefixed Decoder.u32 Decoder.u64 Decoder.fixed at *
    dsimp only at *
    omega

/-- `Load` never returns an entry whose payload is too long. -/
theorem command_of_scanLog (expect : Nat) (data : Bytes) :
    ∀ e ∈ (scanLog expect data).1, 20 + e.command.length < 2 ^ 32 := by
  induction hn : data.length using Nat.strong_induction_on generalizing data expect with
  | _ n ih =>
    intro e he
    cases hread : logCodec.readRecord data with
    | none =>
      rw [scanLog_none hread] at he
      cases he
    | some next =>
      obtain ⟨e', size⟩ := next
      obtain ⟨hpos, hmax⟩ := readRecord_size hread
      have hlen : (data.drop size).length < n := by
        rw [length_drop]
        omega
      rcases Nat.lt_trichotomy e'.index expect with hcov | hnext | hgap
      · rw [scanLog_covered hread hcov] at he
        exact ih _ hlen expect _ rfl e he
      · rw [scanLog_next hread hnext] at he
        cases mem_cons.mp he with
        | inl hhead =>
          obtain ⟨p, hdecode, hshort⟩ := Codec.payload_of_readRecord hread
          rw [logCodec_decode] at hdecode
          rw [hhead, length_of_decodeLogPayload hdecode]
          exact hshort
        | inr htail => exact ih _ hlen (expect + 1) _ rfl e htail
      · rw [scanLog_gap hread hgap] at he
        cases he

theorem appendOps_apply (disk : Disk) (es : List LogEntry) :
    ((Storage.appendOps es).foldl Disk.apply disk).state = disk.state ∧
    ((Storage.appendOps es).foldl Disk.apply disk).snap = disk.snap ∧
    ((Storage.appendOps es).foldl Disk.apply disk).log.getD [] =
      disk.log.getD [] ++ logCodec.records es := by
  unfold Storage.appendOps
  by_cases hes : es = []
  · rw [if_pos hes, hes]
    exact ⟨rfl, rfl, (append_nil _).symm⟩
  · rw [if_neg hes]
    exact ⟨rfl, rfl, rfl⟩

/-- **The second `Load`** returns what the first one returned and what was appended exactly if the
log has no record with an index that is too high and the appended payloads are shorter than 2^32
bytes; or nothing was appended. -/
theorem load_append {disk disk' : Disk} {d : Storage} {es : List LogEntry}
    (hload : disk.load = some (d, disk'))
    (hes : Contiguous (d.snap.lastIndex + d.entries.length) es)
    (hlast : d.snap.lastIndex + d.entries.length + es.length < 2 ^ 64)
    (hterms : ∀ e ∈ es, e.term < 2 ^ 64) :
    (∃ disk'', ((Storage.appendOps es).foldl Disk.apply disk').load =
      some ({ d with entries := d.entries ++ es }, disk'')) ↔
    es = [] ∨ Gapless (d.snap.lastIndex + 1) (disk.log.getD []) ∧
      ∀ e ∈ es, 20 + e.command.length < 2 ^ 32 := by
  obtain ⟨hard, hhard, hload⟩ := bind_eq_some_iff.mp hload
  obtain ⟨snap, hsnap, hload⟩ := bind_eq_some_iff.mp hload
  cases hload
  dsimp only at hes hlast ⊢
  have happend := scanLog_take_append (snap.lastIndex + 1) (disk.log.getD []) (logCodec.records es)
  change Contiguous (snap.lastIndex + (scanLog (snap.lastIndex + 1) (disk.log.getD [])).1.length) es
    at hes
  change snap.lastIndex + (scanLog (snap.lastIndex + 1) (disk.log.getD [])).1.length + es.length <
    2 ^ 64 at hlast
  show (∃ disk'', ((Storage.appendOps es).foldl Disk.apply { disk with
      log := some ((disk.log.getD []).take (scanLog (snap.lastIndex + 1) (disk.log.getD [])).2) }).load
    = some (⟨hard, snap, (scanLog (snap.lastIndex + 1) (disk.log.getD [])).1 ++ es⟩, disk'')) ↔ _
  -- the second `Load` finds the same hard state and snapshot
  generalize hcut : ({ disk with log := some ((disk.log.getD []).take
    (scanLog (snap.lastIndex + 1) (disk.log.getD [])).2) } : Disk) = cut
  have hfiles : cut.state = disk.state ∧ cut.snap = disk.snap ∧ cut.log.getD [] =
      (disk.log.getD []).take (scanLog (snap.lastIndex + 1) (disk.log.getD [])).2 := by
    rw [← hcut]
    exact ⟨rfl, rfl, rfl⟩
  obtain ⟨hstate, hsnap', hlog⟩ := appendOps_apply cut es
  rw [hfiles.1] at hstate
  rw [hfiles.2.1] at hsnap'
  rw [hfiles.2.2] at hlog
  have hsecond := Disk.load_eq (hstate ▸ hhard) (hsnap' ▸ hsnap)
  rw [hlog] at hsecond
  rw [hsecond]
  have hread := command_of_scanLog (snap.lastIndex + 1) ((disk.log.getD []).take
    (scanLog (snap.lastIndex + 1) (disk.log.getD [])).2 ++ logCodec.records es)
  generalize (scanLog (snap.lastIndex + 1) (disk.log.getD [])).1 = old at *
  rw [happend] at hread ⊢
  constructor
  · rintro ⟨disk'', heq⟩
    have hentries := append_cancel_left (show old ++ _ = old ++ es from
      congrArg (fun r => r.elim [] fun r => r.1.entries) heq)
    rw [hentries] at hread
    by_cases hgap : Gapless (snap.lastIndex + 1) (disk.log.getD [])
    · exact .inr ⟨hgap, fun e he => hread e (mem_append_right _ he)⟩
    · rw [if_neg hgap] at hentries
      exact .inl hentries.symm
  · intro hgood
    suffices hnew : (if Gapless (snap.lastIndex + 1) (disk.log.getD []) then
        (scanLog (snap.lastIndex + 1 + old.length) (logCodec.records es)).1 else []) = es by
      rw [hnew]
      exact ⟨_, rfl⟩
    rcases hgood with rfl | ⟨hgap, hfits⟩
    · rw [ite_eq_right_iff]
      exact fun _ => congrArg Prod.fst (scanLog_none Codec.readRecord_nil)
    · -- the appended records are read from the index on that the loop then expects
      have hes' : ∀ e ∈ es, e.Fits := by
        intro e he
        have hindex := hes.index_mem he
        exact ⟨hterms e he, by omega, hfits e he⟩
      have hall := scanLog_entries hes hes' Codec.readRecord_nil
      rw [append_nil] at hall
      rw [if_pos hgap, Nat.add_right_comm]
      exact congrArg Prod.fst hall

theorem load_append_tornTail :
    ∃ d disk', ({ log := some (logCodec.records [⟨1, 1, [97]⟩] ++ [7, 0]) } : Disk).load =
        some (d, disk') ∧ d.entries = [⟨1, 1, [97]⟩] ∧
      ∃ disk'', ((Storage.appendOps [⟨2, 2, [98]⟩]).foldl Disk.apply disk').load =
        some ({ d with entries := d.entries ++ [⟨2, 2, [98]⟩] }, disk'') := by
  have hany : (({ log := some (logCodec.records [⟨1, 1, [97]⟩] ++ [7, 0]) } : Disk).load).any
      (fun r => r.1.entries = [⟨1, 1, [97]⟩] ∧ r.1.snap.lastIndex = 0) = true := by decide +kernel
  obtain ⟨⟨d, disk'⟩, hload, hd⟩ := any_eq_true _ _ |>.mp hany
  have hd := of_decide_eq_true hd
  dsimp only at hd
  refine ⟨d, disk', hload, hd.1, (load_append hload ?_ ?_ (by decide)).mpr (.inr ⟨?_, by decide⟩)⟩
  · rw [hd.1, hd.2]
    decide
  · rw [hd.1, hd.2]
    decide
  · rw [hd.2]
    decide +kernel

/-- **An entry that is appended and never read**: the log holds one record, of index 5.  `Load`
returns no entry and leaves the record; entry 1 goes behind it, and the second `Load` returns no
entry either. -/
theorem load_append_gap :
    ∃ d disk' d' disk'', ({ log := some (logCodec.records [⟨1, 5, [97]⟩]) } : Disk).load =
        some (d, disk') ∧ d.snap.lastIndex = 0 ∧ d.entries = [] ∧
      Contiguous 0 [⟨2, 1, [98]⟩] ∧
      ((Storage.appendOps [⟨2, 1, [98]⟩]).foldl Disk.apply disk').load = some (d', disk'') ∧
      d'.entries ≠ d.entries ++ [⟨2, 1, [98]⟩] := by
  have hany : (({ log := some (logCodec.records [⟨1, 5, [97]⟩]) } : Disk).load).any
      (fun r => r.1.entries = [] ∧ r.1.snap.lastIndex = 0 ∧
        (((Storage.appendOps [⟨2, 1, [98]⟩]).foldl Disk.apply r.2).load).any
          (fun r' => r'.1.entries = []) = true) = true := by decide +kernel
  obtain ⟨⟨d, disk'⟩, hload, hd⟩ := any_eq_true _ _ |>.mp hany
  have hd := of_decide_eq_true hd
  dsimp only at hd
  obtain ⟨⟨d', disk''⟩, hload', hd'⟩ := any_eq_true _ _ |>.mp hd.2.2
  have hd' := of_decide_eq_true hd'
  dsimp only at hd'
  refine ⟨d, disk', d', disk'', hload, hd.2.1, hd.1, by decide, hload', ?_⟩
  rw [hd', hd.1]
  decide

end Flotilla.Raft
