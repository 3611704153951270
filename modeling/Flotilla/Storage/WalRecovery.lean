/-
  Storage.WalRecovery — what is left of a log that was cut anywhere.

  A log that loses its end loses whole records, and nothing else: recovery reads
  the records that lie before the cut, cuts the file behind them, and the file
  can be appended to as before.  A record's length is stored in 32 bits, so the
  records before the cut need payloads shorter than 2^32 bytes, and the torn one
  must not pass for a shorter record.
-/
import Flotilla.Storage.Wal

namespace Flotilla.Storage

/-! ## What can be read. -/

theorem length_of_decodePayload {p : Bytes} {e : Entry} (h : decodePayload p = some e) :
    17 + e.key.length + e.value.length = p.length ∧ e.seqno < 2 ^ 64 := by
  unfold decodePayload at h
  dsimp only at h
  split at h
  · cases h
  · rename_i hok
    obtain ⟨op, _, rfl⟩ := map_eq_some_iff.mp h
    have hend : ((((Decoder.mk p false).u64.2.u8.2.lengthPrefixed.2.lengthPrefixed.2)).failed =
        false) ∧ (Decoder.mk p false).u64.2.u8.2.lengthPrefixed.2.lengthPrefixed.2.rest.length = 0 := by
      simpa [Decoder.ok, Decoder.remaining] using hok
    obtain ⟨h5, hvalue, _⟩ := Decoder.bytes_ok hend.1
    obtain ⟨h4, hlen2, h4'⟩ := Decoder.bytes_ok h5
    obtain ⟨h3, hkey, _⟩ := Decoder.bytes_ok h4
    obtain ⟨h2, hlen1, h2'⟩ := Decoder.bytes_ok h3
    obtain ⟨h1, hop, h1'⟩ := Decoder.bytes_ok h2
    obtain ⟨_, hseq, h0'⟩ := Decoder.bytes_ok h1
    have hseqno : (Decoder.mk p false).u64.1 < 2 ^ 64 := by
      have hlt := decodeFixed_lt ((Decoder.mk p false).bytes 8).1
      rw [h0'] at hlt
      exact hlt
    refine ⟨?_, hseqno⟩
    show 17 + (Decoder.lengthPrefixed _).1.length + (Decoder.lengthPrefixed _).1.length = _
    unfold Decoder.lengthPrefixed Decoder.u32 Decoder.u8 Decoder.u64 Decoder.fixed at *
    dsimp only at *
    omega

theorem fits_of_readRecord {data : Bytes} {e : Entry} {size : Nat}
    (h : readRecord data = some (e, size)) : e.Fits := by
  obtain ⟨p, hdecode, hshort⟩ := Codec.payload_of_readRecord h
  rw [walCodec_decode] at hdecode
  obtain ⟨hlen, hseq⟩ := length_of_decodePayload hdecode
  exact ⟨by omega, hseq⟩

/-- Recovery never returns an entry whose payload is too long. -/
theorem fits_of_recoverWal (data : Bytes) : ∀ e ∈ (recoverWal data).1, e.Fits := by
  induction hn : data.length using Nat.strong_induction_on generalizing data with
  | _ n ih =>
    intro e he
    rw [recoverWal_eq] at he
    cases hread : readRecord data with
    | none =>
      rw [hread] at he
      cases he
    | some next =>
      obtain ⟨e', size⟩ := next
      rw [hread] at he
      obtain ⟨hmin, hmax⟩ := size_of_readRecord hread
      cases mem_cons.mp he with
      | inl hhead => exact hhead ▸ fits_of_readRecord hread
      | inr htail => exact ih (data.drop size).length (by rw [length_drop]; omega) _ rfl e htail

/-! ## A log that is read, cut and written to. -/

theorem recoverWal_truncate_append (data rest : Bytes) :
    recoverWal (data.take (recoverWal data).2 ++ rest) =
      ((recoverWal data).1 ++ (recoverWal rest).1, (recoverWal data).2 + (recoverWal rest).2) := by
  induction hn : data.length using Nat.strong_induction_on generalizing data with
  | _ n ih =>
    rw [recoverWal_eq data]
    cases hread : readRecord data with
    | none =>
      show recoverWal rest = (_, 0 + _)
      rw [Nat.zero_add]
      rfl
    | some next =>
      obtain ⟨e, size⟩ := next
      obtain ⟨hmin, hmax⟩ := size_of_readRecord hread
      have hrest := ih (data.drop size).length (by rw [length_drop]; omega) _ rfl
      have hkept : readRecord (data.take (size + (recoverWal (data.drop size)).2) ++ rest) =
          some (e, size) :=
        Codec.readRecord_append (Codec.readRecord_take hread (Nat.le_add_right _ _)) rest
      rw [recoverWal_eq, hkept]
      dsimp only
      rw [drop_append_of_le_length, drop_take, Nat.add_sub_cancel_left, hrest]
      · show (_, _) = (_, _)
        rw [Nat.add_assoc]
        rfl
      · rw [length_take]
        omega

theorem recoverWal_truncate (data : Bytes) :
    recoverWal (data.take (recoverWal data).2) = recoverWal data := by
  have hcut := recoverWal_truncate_append data []
  rw [append_nil] at hcut
  rw [hcut]
  show ((recoverWal data).1 ++ [], _) = _
  rw [append_nil]
  rfl

/-! ## Recovery of a torn log. -/

/-- **Recovery returns the records before the cut** exactly if their payloads fit and what is left
of the next record does not pass for a record itself.  Of arbitrary bytes behind the records it may
take more, whoever wrote those records; a second recovery finds the same, and the log goes on
behind it with every new entry that fits. -/
theorem torn_log_recovers (es new : List Entry) (cut : Nat) (tail : Bytes) :
    (recoverWal ((walRecords es).take cut) = (es.take (walCodec.whole es cut),
        (walRecords (es.take (walCodec.whole es cut))).length) ↔
      (∀ e ∈ es.take (walCodec.whole es cut), e.Fits) ∧
        ∀ e, es[walCodec.whole es cut]? = some e →
          ¬ walCodec.Passes e (cut - (walRecords (es.take (walCodec.whole es cut))).length)) ∧
    (es <+: (recoverWal (walRecords es ++ tail)).1 ↔ ∀ e ∈ es, e.Fits) ∧
    ∀ data, recoverWal (data.take (recoverWal data).2) = recoverWal data ∧
      (recoverWal data).1 <+: (recoverWal (data.take (recoverWal data).2 ++ tail)).1 ∧
      ((recoverWal (data.take (recoverWal data).2 ++ walRecords new)).1 =
        (recoverWal data).1 ++ new ↔ ∀ e ∈ new, e.Fits) := by
  refine ⟨?_, ⟨fun hpre e he => ?_, fun hes => ?_⟩, fun data => ⟨recoverWal_truncate data, ?_,
    fun hall e he => ?_, fun hnew => ?_⟩⟩
  · obtain ⟨rest, htake, hread⟩ := walCodec.take_records es cut
    unfold walRecords
    rw [htake, ← hread]
    constructor
    · intro heq
      have hfits := fits_of_recoverWal (walCodec.records (es.take (walCodec.whole es cut)) ++ rest)
      rw [heq] at hfits
      exact ⟨hfits, (recoverWal_records hfits).mp heq⟩
    · exact fun h => (recoverWal_records h.1).mpr h.2
  · exact fits_of_recoverWal _ e (hpre.subset he)
  · rw [recoverWal_append hes]
    exact prefix_append es _
  · rw [recoverWal_truncate_append]
    exact prefix_append _ _
  · apply fits_of_recoverWal (data.take (recoverWal data).2 ++ walRecords new)
    rw [hall]
    exact mem_append_right _ he
  · have hall := recoverWal_append hnew []
    rw [append_nil] at hall
    rw [recoverWal_truncate_append, hall]
    show _ ++ (new ++ []) = _
    rw [append_nil]

theorem torn_log_recovers_twoEntries :
    recoverWal ((walRecords [⟨[97], 1, .put, [98]⟩, ⟨[97], 2, .delete, []⟩]).take 30) =
      ([⟨[97], 1, .put, [98]⟩], 27) := by
  refine (torn_log_recovers [⟨[97], 1, .put, [98]⟩, ⟨[97], 2, .delete, []⟩] [] 30 []).1.mpr
    ⟨by decide, fun e _ hpass => ?_⟩
  have hleft : 30 - (walRecords [⟨[97], 1, .put, [98]⟩]).length = 3 := by decide +kernel
  have hmin : 8 + (walCodec.encode e).length % 2 ^ 32 ≤
      30 - (walRecords [⟨[97], 1, .put, [98]⟩]).length := hpass.1
  omega

/-! ## Payloads that are too long. -/

theorem readRecord_wrapped {e : Entry} (h : (17 + e.key.length + e.value.length) % 2 ^ 32 = 0)
    (rest : Bytes) : readRecord (walRecord e ++ rest) = none := by
  have hlen : decodeFixed ((walRecord e ++ rest).take 4) = 0 := by
    unfold walRecord
    rw [(Codec.readRecord_header e rest).1, walCodec_encode, length_encodePayload]
    exact h
  unfold readRecord Codec.readRecord
  dsimp only
  rw [hlen, take_zero]
  split
  · rfl
  · split
    · rfl
    · split <;> rfl

/-- **A record that is lost**: nothing is read, and the whole file is cut. -/
theorem recoverWal_long_payload :
    ∃ e : Entry, e.seqno = 1 ∧ e.key = [107] ∧ e.value.length = 2 ^ 32 - 18 ∧
      recoverWal (walRecords [e]) = ([], 0) := by
  obtain ⟨value, hvalue⟩ : ∃ value : Bytes, value.length = 2 ^ 32 - 18 :=
    ⟨List.replicate (2 ^ 32 - 18) 0, length_replicate⟩
  refine ⟨⟨[107], 1, .put, value⟩, rfl, rfl, hvalue, ?_⟩
  have hwraps : (17 + ([107] : Bytes).length + value.length) % 2 ^ 32 = 0 := by
    rw [hvalue]
    rfl
  have hnone := readRecord_wrapped (e := ⟨[107], 1, .put, value⟩) hwraps []
  show recoverWal (walRecord ⟨[107], 1, .put, value⟩ ++ []) = _
  rw [recoverWal_eq, hnone]

end Flotilla.Storage
