/-
  Storage.BitErrors — damage to the payload of a log record.

  The checksum of `common/crc32.cc` takes a byte in one step, through a table.
  Here it is taken apart into the moves of a shift register, so that every change
  of at most 32 bits one behind the other is seen.  Bits are counted in the
  order in which the checksum takes them: byte by byte, the lowest bit of a byte
  first.
-/
import Flotilla.Lib.Crc
import Flotilla.Storage.WalRecovery

namespace Flotilla

open Decoder

/-! ## The checksum as a division. -/

/-- The bits of a string, the lowest bit of a byte first. -/
def payloadBits (data : Bytes) : List Bool :=
  data.flatMap fun b => (List.range 8).map b.toNat.testBit

/-- 0xEDB88320 -/
def crcPoly : BitVec 32 := 0xEDB88320#32

theorem crcShift_eq (c : UInt32) : (crcShift c).toBitVec = Crc.shift crcPoly c.toBitVec := by
  have hlow : c &&& 1 = 1 ↔ c.toBitVec.getLsbD 0 = true := by
    have hand : (c &&& 1).toBitVec = BitVec.setWidth 32 (BitVec.ofBool (c.toBitVec.getLsbD 0)) := by
      rw [UInt32.toBitVec_and]
      exact BitVec.and_one_eq_setWidth_ofBool_getLsbD
    rw [← UInt32.toBitVec_inj, hand]
    cases c.toBitVec.getLsbD 0 <;> decide
  unfold crcShift Crc.shift
  by_cases hbit : c &&& 1 = 1
  · rw [if_pos hbit, if_pos (hlow.mp hbit)]
    rfl
  · rw [if_neg hbit, if_neg (fun h => hbit (hlow.mpr h))]
    rfl

theorem crcTable_eq (i : UInt32) :
    (crcTable i).toBitVec = (Crc.shift crcPoly)^[8] i.toBitVec := by
  show (crcShift (crcShift (crcShift (crcShift (crcShift (crcShift (crcShift (crcShift
    i)))))))).toBitVec = _
  simp only [crcShift_eq]
  rfl

theorem getLsbD_byte (b : UInt8) (i : Nat) :
    b.toUInt32.toBitVec.getLsbD i = (decide (i < 8) && b.toNat.testBit i) := by
  rw [UInt8.toBitVec_toUInt32, BitVec.getLsbD_setWidth]
  show (decide (i < 32) && b.toNat.testBit i) = _
  by_cases hi : i < 8
  · have hwide : i < 32 := by omega
    simp [hi, hwide]
  · have hlt : b.toNat < 2 ^ i := b.toNat_lt.trans_le (Nat.pow_le_pow_right (by decide) (by omega))
    simp [Nat.testBit_lt_two_pow hlt]

theorem word_byte (b : UInt8) :
    (Crc.word ((List.range 8).map b.toNat.testBit) : BitVec 32) = b.toUInt32.toBitVec := by
  apply BitVec.eq_of_getLsbD_eq
  intro i hi
  rw [Crc.getLsbD_word, decide_eq_true hi, Bool.true_and, getLsbD_byte]
  by_cases hlow : i < 8 <;> simp [hlow]

theorem crcStep_eq (c : UInt32) (b : UInt8) :
    (crcTable ((c ^^^ b.toUInt32) &&& 0xFF) ^^^ (c >>> 8)).toBitVec =
      Crc.run crcPoly c.toBitVec ((List.range 8).map b.toNat.testBit) := by
  have hlen : ((List.range 8).map b.toNat.testBit).length = 8 := rfl
  rw [Crc.run_eq_iterate (by rw [hlen]; decide), hlen, word_byte]
  generalize hx : c.toBitVec ^^^ b.toUInt32.toBitVec = x
  have hsplit : x = (x &&& 0xFF#32) ^^^ (x &&& ~~~0xFF#32) := by
    ext i
    simp only [BitVec.getElem_xor, BitVec.getElem_and, BitVec.getElem_not]
    cases x[i] <;> cases (0xFF#32)[i] <;> rfl
  have hmask : ∀ i, (x &&& ~~~0xFF#32).getLsbD i = (x.getLsbD i && !decide (i < 8)) := by
    intro i
    have hff : (0xFF#32).getLsbD i = decide (i < 8) := by
      have hpow : (0xFF#32).getLsbD i = (2 ^ 8 - 1).testBit i := rfl
      rw [hpow, Nat.testBit_two_pow_sub_one]
    rw [BitVec.getLsbD_and, BitVec.getLsbD_not, hff]
    by_cases hi : i < 32
    · simp [hi]
    · simp [BitVec.getLsbD_of_ge x i (Nat.le_of_not_lt hi)]
  have hhigh : (Crc.shift crcPoly)^[8] (x &&& ~~~0xFF#32) = c.toBitVec >>> 8 := by
    rw [Crc.iterate_shift_high 8 fun i hi => by rw [hmask, decide_eq_true hi]; simp]
    apply BitVec.eq_of_getLsbD_eq
    intro i _
    have hout : decide (8 + i < 8) = false := decide_eq_false (by omega)
    rw [BitVec.getLsbD_ushiftRight, BitVec.getLsbD_ushiftRight, hmask, ← hx, BitVec.getLsbD_xor,
      getLsbD_byte, hout, Bool.false_and, Bool.xor_false, Bool.not_false, Bool.and_true]
  conv => rhs; rw [hsplit, Crc.iterate_shift_xor, hhigh]
  rw [UInt32.toBitVec_xor, crcTable_eq, UInt32.toBitVec_and, UInt32.toBitVec_xor, hx]
  rfl

theorem crc32_eq_run (data : Bytes) :
    (crc32 data).toBitVec =
      Crc.run crcPoly (0xFFFFFFFF#32) (payloadBits data) ^^^ 0xFFFFFFFF#32 := by
  have hfold : ∀ c : UInt32, (data.foldl (fun crc c =>
      crcTable ((crc ^^^ c.toUInt32) &&& 0xFF) ^^^ (crc >>> 8)) c).toBitVec =
      Crc.run crcPoly c.toBitVec (payloadBits data) := by
    induction data with
    | nil => exact fun c => rfl
    | cons b data ih =>
      intro c
      rw [foldl_cons, ih, crcStep_eq, ← Crc.run_append]
      rfl
  unfold crc32
  rw [UInt32.toBitVec_xor, hfold]
  rfl

/-! ## Bursts. -/

/-- The strings differ, and only within 32 bits one behind the other. -/
structure Burst (p p' : Bytes) : Prop where
  length : p.length = p'.length
  differs : p ≠ p'
  within : ∃ i, ∀ j, (payloadBits p)[j]? ≠ (payloadBits p')[j]? → i ≤ j ∧ j < i + 32

theorem length_payloadBits (data : Bytes) : (payloadBits data).length = 8 * data.length := by
  unfold payloadBits
  rw [List.length_flatMap]
  simp [Nat.mul_comm]

theorem payloadBits_injective : Function.Injective payloadBits := by
  intro p
  induction p with
  | nil =>
    intro p' h
    have hlen := congrArg List.length h
    rw [length_payloadBits, length_payloadBits] at hlen
    exact (List.length_eq_zero_iff.mp (by simpa using hlen.symm)).symm
  | cons b p ih =>
    intro p' h
    cases p' with
    | nil => cases h
    | cons b' p' =>
      obtain ⟨hbyte, hrest⟩ := List.append_inj h rfl
      have hword := congrArg (Crc.word (w := 32)) hbyte
      rw [word_byte, word_byte] at hword
      have hb : b = b' := by
        have hnat := congrArg BitVec.toNat hword
        exact UInt8.toNat_inj.mp (by simpa using hnat)
      rw [hb, ih hrest]

theorem Burst.crc32_ne {p p' : Bytes} (h : Burst p p') : crc32 p ≠ crc32 p' := by
  obtain ⟨i, hi⟩ := h.within
  have hlen : (payloadBits p).length = (payloadBits p').length := by
    rw [length_payloadBits, length_payloadBits, h.length]
  have hfront : (payloadBits p).take i = (payloadBits p').take i := by
    apply List.ext_getElem?
    intro j
    rw [List.getElem?_take, List.getElem?_take]
    by_cases hj : j < i
    · rw [if_pos hj, if_pos hj]
      by_contra hne
      exact absurd (hi j hne).1 (by omega)
    · rw [if_neg hj, if_neg hj]
  have hback : (payloadBits p).drop (i + 32) = (payloadBits p').drop (i + 32) := by
    apply List.ext_getElem?
    intro j
    rw [getElem?_drop, getElem?_drop]
    by_contra hne
    exact absurd (hi _ hne).2 (by omega)
  have hparts : ∀ bits : List Bool,
      bits.take i ++ ((bits.drop i).take 32 ++ bits.drop (i + 32)) = bits := by
    intro bits
    rw [← drop_drop, take_append_drop, take_append_drop]
  have hne : ((payloadBits p).drop i).take 32 ≠ ((payloadBits p').drop i).take 32 := by
    intro heq
    apply h.differs
    apply payloadBits_injective
    rw [← hparts (payloadBits p), ← hparts (payloadBits p'), hfront, heq, hback]
  intro hcrc
  have hrun := congrArg UInt32.toBitVec hcrc
  rw [crc32_eq_run, crc32_eq_run, BitVec.xor_left_inj, ← hparts (payloadBits p),
    ← hparts (payloadBits p'), hfront, hback] at hrun
  refine Crc.run_ne_of_burst (by decide) ?_ (length_take_le _ _) hne _ _ _ hrun
  rw [length_take, length_take, length_drop, length_drop, hlen]

/-! ## Recovery. -/

namespace Storage

/-- The record of an entry with another payload behind the same length and checksum. -/
def damagedRecord (e : Entry) (payload : Bytes) : Bytes :=
  putFixed32 (encodePayload e).length ++ (putFixed32 (crc32 (encodePayload e)).toNat ++ payload)

theorem readRecord_damaged {e : Entry} {payload : Bytes} (h : e.Fits)
    (hburst : Burst (encodePayload e) payload) (rest : Bytes) :
    readRecord (damagedRecord e payload ++ rest) = none := by
  have hlen : (encodePayload e).length < 256 ^ 4 := by
    rw [length_encodePayload]
    exact h.1
  have hcrc : (crc32 (encodePayload e)).toNat < 256 ^ 4 := (crc32 (encodePayload e)).toNat_lt
  unfold readRecord Codec.readRecord damagedRecord
  simp only [append_assoc]
  rw [take_left' (length_putFixed32 _), drop_left' (length_putFixed32 _),
    take_left' (length_putFixed32 _), putFixed32, putFixed32, decodeFixed_putFixed,
    decodeFixed_putFixed, Nat.mod_eq_of_lt hlen, Nat.mod_eq_of_lt hcrc]
  have hdrop : (putFixed 4 (encodePayload e).length ++ (putFixed 4 (crc32 (encodePayload e)).toNat ++
      (payload ++ rest))).drop 8 = payload ++ rest := by
    rw [← append_assoc, drop_left']
    rw [length_append, length_putFixed, length_putFixed]
  rw [hdrop, hburst.length, take_left]
  have hne : (crc32 payload).toNat ≠ (crc32 (encodePayload e)).toNat :=
    fun heq => hburst.crc32_ne (UInt32.toNat_inj.mp heq.symm)
  rw [if_pos hne]
  split
  · rfl
  · split <;> rfl

/-- **Damage to one payload stops recovery before its record**: a burst of at most 32 bits is always
noticed, and the entries before it are returned exactly if their payloads are shorter than 2^32
bytes.  A damaged payload of 2^32 bytes or more is checked only as far as its length field says;
what recovery takes of it comes behind the entries before it. -/
theorem damaged_log_recovers {before : List Entry} {e : Entry} {payload : Bytes}
    (hburst : Burst (encodePayload e) payload) (after : List Entry) :
    (before <+: (recoverWal (walRecords before ++ (damagedRecord e payload ++ walRecords after))).1 ↔
      ∀ e' ∈ before, e'.Fits) ∧
    (e.Fits →
      ((recoverWal (walRecords before ++ (damagedRecord e payload ++ walRecords after))).1 = before ↔
        ∀ e' ∈ before, e'.Fits)) ∧
    ∀ p p' : Bytes, Burst p p' → crc32 p ≠ crc32 p' := by
  have hpre : before <+: (recoverWal (walRecords before ++ (damagedRecord e payload ++
      walRecords after))).1 → ∀ e' ∈ before, e'.Fits :=
    fun h e' he' => fits_of_recoverWal _ e' (h.subset he')
  refine ⟨⟨hpre, fun hall => ?_⟩, fun hfits => ⟨fun heq => ?_, fun hall => ?_⟩,
    fun p p' => Burst.crc32_ne⟩
  · rw [recoverWal_append hall]
    exact prefix_append _ _
  · apply hpre
    rw [heq]
  · rw [(recoverWal_records hall).mpr (readRecord_damaged hfits hburst _)]

theorem burst_value : Burst (encodePayload ⟨[97], 2, .put, [98]⟩)
    ((encodePayload ⟨[97], 2, .put, [98]⟩).set 18 157) :=
  ⟨rfl, by decide +kernel, 144, fun j hj => by
    by_contra hout
    have hcases : ∀ j < 152, j < 144 ∨ 144 + 32 ≤ j → (payloadBits (encodePayload
        ⟨[97], 2, .put, [98]⟩))[j]? = (payloadBits ((encodePayload ⟨[97], 2, .put, [98]⟩).set 18
          157))[j]? := by decide +kernel
    by_cases hend : j < 152
    · exact hj (hcases j hend (by omega))
    · apply hj
      rw [List.getElem?_eq_none, List.getElem?_eq_none] <;> rw [length_payloadBits] <;>
        exact Nat.le_of_not_lt hend⟩

theorem damaged_log_recovers_second :
    (recoverWal (walRecords [⟨[97], 1, .put, [99]⟩] ++ (damagedRecord ⟨[97], 2, .put, [98]⟩
      ((encodePayload ⟨[97], 2, .put, [98]⟩).set 18 157) ++ walRecords []))).1 =
        [⟨[97], 1, .put, [99]⟩] :=
  ((damaged_log_recovers burst_value []).2.1 (by decide)).mpr (by decide)

/-- **An entry before the damage that is not returned**: its payload has 2^32 bytes. -/
theorem damaged_log_long_payload :
    ∃ big : Entry, big.key = [107] ∧ big.value.length = 2 ^ 32 - 18 ∧
      (recoverWal (walRecords [big] ++ (damagedRecord ⟨[97], 2, .put, [98]⟩
        ((encodePayload ⟨[97], 2, .put, [98]⟩).set 18 157) ++ walRecords []))).1 ≠ [big] := by
  obtain ⟨value, hvalue⟩ : ∃ value : Bytes, value.length = 2 ^ 32 - 18 :=
    ⟨List.replicate (2 ^ 32 - 18) 0, length_replicate⟩
  refine ⟨⟨[107], 1, .put, value⟩, rfl, hvalue, fun heq => ?_⟩
  have hfits := fits_of_recoverWal (walRecords [⟨[107], 1, .put, value⟩] ++ (damagedRecord
    ⟨[97], 2, .put, [98]⟩ ((encodePayload ⟨[97], 2, .put, [98]⟩).set 18 157) ++ walRecords []))
  rw [heq] at hfits
  have hshort : 17 + 1 + value.length < 2 ^ 32 := (hfits _ mem_cons_self).1
  omega

end Storage

end Flotilla
