/-
  Framing — records with a length and a checksum, as both logs write them.

  A record is the length of its payload, the checksum of the payload and the
  payload.  A log is records one behind the other, and is read until one is not
  whole.
-/
import Flotilla.Coding

namespace Flotilla

/-- How the payload of a record is written and read. -/
structure Codec (E : Type) where
  encode : E → Bytes
  decode : Bytes → Option E

namespace Codec

variable {E : Type} (c : Codec E)

def record (e : E) : Bytes :=
  let payload := c.encode e
  putFixed32 payload.length ++ (putFixed32 (crc32 payload).toNat ++ payload)

/-- The entry at a record boundary and the size of its record, if there is a whole one. -/
def readRecord (data : Bytes) : Option (E × Nat) :=
  let len := decodeFixed (data.take 4)
  let crc := decodeFixed ((data.drop 4).take 4)
  let payload := (data.drop 8).take len
  if data.length < 8 then none
  else if data.length - 8 < len then none
  else if (crc32 payload).toNat ≠ crc then none
  else (c.decode payload).map fun e => (e, 8 + len)

def records (es : List E) : Bytes := es.flatMap c.record

/-- The length of the payload fits its field, and the payload reads back. -/
structure Fits (e : E) : Prop where
  length : (c.encode e).length < 2 ^ 32
  decode : c.decode (c.encode e) = some e

/-- The first `n` bytes of the record pass for a record: as much of the payload as the length field
says is there, has the checksum of the whole payload and parses. -/
def Passes (e : E) (n : Nat) : Prop :=
  let len := (c.encode e).length % 2 ^ 32
  8 + len ≤ n ∧ crc32 ((c.encode e).take len) = crc32 (c.encode e) ∧
    (c.decode ((c.encode e).take len)).isSome = true

/-- How many records lie wholly before a cut. -/
def whole : List E → Nat → Nat
  | [], _ => 0
  | e :: es, cut =>
      if (c.record e).length ≤ cut then whole es (cut - (c.record e).length) + 1 else 0

variable {c} {e : E} {data : Bytes} {size : Nat}

@[simp] theorem length_record (e : E) : (c.record e).length = 8 + (c.encode e).length := by
  unfold record
  simp only [length_append, length_putFixed32]
  omega

theorem records_cons (e : E) (es : List E) : c.records (e :: es) = c.record e ++ c.records es := rfl

theorem records_append (es fs : List E) : c.records (es ++ fs) = c.records es ++ c.records fs :=
  flatMap_append

/-! ## One record. -/

theorem readRecord_nil : c.readRecord [] = none := rfl

theorem size_of_readRecord (h : c.readRecord data = some (e, size)) :
    size = 8 + decodeFixed (data.take 4) ∧ size ≤ data.length ∧
      c.decode ((data.drop 8).take (decodeFixed (data.take 4))) = some e := by
  unfold readRecord at h
  dsimp only at h
  split at h
  · cases h
  · split at h
    · cases h
    · split at h
      · cases h
      · obtain ⟨e', hdecode, heq⟩ := map_eq_some_iff.mp h
        cases heq
        exact ⟨rfl, by omega, hdecode⟩

/-- What is read has a payload whose length fits its field. -/
theorem payload_of_readRecord (h : c.readRecord data = some (e, size)) :
    ∃ p, c.decode p = some e ∧ p.length < 2 ^ 32 := by
  have hlen := decodeFixed_lt (data.take 4)
  have hwidth : 256 ^ (data.take 4).length ≤ 256 ^ 4 :=
    Nat.pow_le_pow_right (by decide) (length_take_le _ _)
  refine ⟨_, (size_of_readRecord h).2.2, ?_⟩
  rw [length_take]
  omega

theorem readRecord_header (e : E) (rest : Bytes) :
    decodeFixed ((c.record e ++ rest).take 4) = (c.encode e).length % 2 ^ 32 ∧
      decodeFixed (((c.record e ++ rest).drop 4).take 4) = (crc32 (c.encode e)).toNat ∧
      (c.record e ++ rest).drop 8 = c.encode e ++ rest := by
  have hsplit : c.record e ++ rest = putFixed32 (c.encode e).length ++
      (putFixed32 (crc32 (c.encode e)).toNat ++ (c.encode e ++ rest)) := by
    unfold record
    simp only [append_assoc]
  have hcrc : (crc32 (c.encode e)).toNat < 256 ^ 4 := (crc32 (c.encode e)).toNat_lt
  rw [hsplit]
  refine ⟨?_, ?_, ?_⟩
  · rw [take_left' (length_putFixed32 _)]
    exact decodeFixed_putFixed 4 _
  · rw [drop_left' (length_putFixed32 _), take_left' (length_putFixed32 _), putFixed32,
      decodeFixed_putFixed, Nat.mod_eq_of_lt hcrc]
  · rw [← append_assoc, drop_left']
    rw [length_append, length_putFixed32, length_putFixed32]

theorem readRecord_record (h : c.Fits e) (rest : Bytes) :
    c.readRecord (c.record e ++ rest) = some (e, (c.record e).length) := by
  obtain ⟨hlen, hcrc, hpayload⟩ := readRecord_header e rest
  rw [Nat.mod_eq_of_lt h.length] at hlen
  have hsize := length_record (c := c) e
  unfold readRecord
  rw [hlen, hcrc, hpayload]
  dsimp only
  rw [take_left, length_append, hsize, h.decode]
  rw [if_neg (by omega), if_neg (by omega), if_neg (by simp)]
  rfl

/-- A record that is cut, or followed by other bytes. -/
theorem readRecord_take_record (e : E) (rest : Bytes) (n : Nat) :
    c.readRecord ((c.record e ++ rest).take n) = none ↔ ¬ c.Passes e n := by
  obtain ⟨hlen, hcrc, hpayload⟩ := readRecord_header e rest
  have hsize := length_record (c := c) e
  have hmod : (c.encode e).length % 2 ^ 32 ≤ (c.encode e).length := Nat.mod_le _ _
  unfold Passes
  dsimp only
  generalize hk : (c.encode e).length % 2 ^ 32 = k at hlen hmod
  have hlength : ((c.record e ++ rest).take n).length =
      min n (8 + (c.encode e).length + rest.length) := by
    rw [length_take, length_append, hsize]
  by_cases hshort : n < 8
  · have hfew : ((c.record e ++ rest).take n).length < 8 := by omega
    unfold readRecord
    rw [if_pos hfew]
    exact iff_of_true rfl fun h => absurd h.1 (by omega)
  · have hhead : decodeFixed (((c.record e ++ rest).take n).take 4) = k := by
      rw [take_take, Nat.min_eq_left (by omega), hlen]
    have hsum : decodeFixed ((((c.record e ++ rest).take n).drop 4).take 4) =
        (crc32 (c.encode e)).toNat := by
      rw [drop_take, take_take, Nat.min_eq_left (by omega), hcrc]
    unfold readRecord
    dsimp only
    rw [hhead, hsum, hlength, if_neg (by omega)]
    by_cases hcut : n < 8 + k
    · rw [if_pos (by omega)]
      exact iff_of_true rfl fun h => absurd h.1 (by omega)
    · have hread : (((c.record e ++ rest).take n).drop 8).take k = (c.encode e).take k := by
        rw [drop_take, take_take, Nat.min_eq_left (by omega), hpayload,
          take_append_of_le_length hmod]
      rw [if_neg (by omega), hread, ite_eq_left_iff, Option.map_eq_none_iff, not_not,
        UInt32.toNat_inj, ← Option.not_isSome_iff_eq_none]
      constructor
      · exact fun h hp => h hp.2.1 hp.2.2
      · exact fun h hsame hp => h ⟨by omega, hsame, hp⟩

/-- Only a payload that is too long can pass for a record before its end. -/
theorem Passes.length_le {n : Nat} (h : c.Passes e n) (hlen : (c.encode e).length < 2 ^ 32) :
    (c.record e).length ≤ n := by
  have hn := h.1
  rw [Nat.mod_eq_of_lt hlen] at hn
  rw [length_record]
  exact hn

theorem Passes.record {n : Nat} (h : c.Passes e n) : c.Passes e (c.record e).length := by
  refine ⟨?_, h.2⟩
  rw [length_record]
  exact Nat.add_le_add_left (Nat.mod_le _ _) 8

theorem readRecord_take {m : Nat} (h : c.readRecord data = some (e, size)) (hm : size ≤ m) :
    c.readRecord (data.take m) = some (e, size) := by
  obtain ⟨hsize, hmax⟩ := size_of_readRecord h
  have hlength : (data.take m).length = min m data.length := length_take
  have hhead : (data.take m).take 4 = data.take 4 := by rw [take_take, Nat.min_eq_left (by omega)]
  have hcrc : ((data.take m).drop 4).take 4 = (data.drop 4).take 4 := by
    rw [drop_take, take_take, Nat.min_eq_left (by omega)]
  have hpayload : ((data.take m).drop 8).take (decodeFixed (data.take 4)) =
      (data.drop 8).take (decodeFixed (data.take 4)) := by
    rw [drop_take, take_take, Nat.min_eq_left (by omega)]
  rw [← h]
  unfold readRecord
  dsimp only
  rw [hhead, hcrc, hpayload, hlength]
  have hlong : ¬ data.length < 8 ∧ ¬ data.length - 8 < decodeFixed (data.take 4) := by omega
  have hlong' : ¬ min m data.length < 8 ∧ ¬ min m data.length - 8 < decodeFixed (data.take 4) := by
    omega
  rw [if_neg hlong.1, if_neg hlong.2, if_neg hlong'.1, if_neg hlong'.2]

theorem readRecord_append (h : c.readRecord data = some (e, size)) (rest : Bytes) :
    c.readRecord (data ++ rest) = some (e, size) := by
  obtain ⟨hsize, hmax⟩ := size_of_readRecord h
  have hhead : (data ++ rest).take 4 = data.take 4 := take_append_of_le_length (by omega)
  have hcrc : ((data ++ rest).drop 4).take 4 = (data.drop 4).take 4 := by
    rw [drop_append_of_le_length (by omega), take_append_of_le_length]
    rw [length_drop]
    omega
  unfold readRecord at h ⊢
  dsimp only at h ⊢
  rw [hhead, hcrc, length_append, drop_append_of_le_length (by omega)]
  by_cases hshort : data.length < 8
  · omega
  · rw [if_neg hshort] at h
    rw [if_neg (by omega)]
    by_cases hlen : data.length - 8 < decodeFixed (data.take 4)
    · rw [if_pos hlen] at h
      cases h
    · rw [if_neg hlen] at h
      rw [if_neg (by omega), take_append_of_le_length (by rw [length_drop]; omega)]
      exact h

/-! ## Cuts. -/

/-- A cut leaves the records before it and a piece of the next, which is a record only if it passes
for one. -/
theorem take_records (es : List E) (cut : Nat) :
    ∃ tail, (c.records es).take cut = c.records (es.take (c.whole es cut)) ++ tail ∧
      (c.readRecord tail = none ↔ ∀ e, es[c.whole es cut]? = some e →
        ¬ c.Passes e (cut - (c.records (es.take (c.whole es cut))).length)) := by
  induction es generalizing cut with
  | nil => exact ⟨[], take_nil, iff_of_true readRecord_nil fun _ he => nomatch he⟩
  | cons e es ih =>
    rw [whole, records_cons]
    by_cases hcut : (c.record e).length ≤ cut
    · obtain ⟨tail, htail, hread⟩ := ih (cut - (c.record e).length)
      rw [if_pos hcut, take_append, take_of_length_le hcut, htail, take_succ_cons, records_cons,
        List.getElem?_cons_succ, length_append, ← Nat.sub_sub]
      exact ⟨tail, (append_assoc _ _ _).symm, hread⟩
    · -- the first record is torn
      rw [if_neg hcut]
      refine ⟨_, rfl, (readRecord_take_record e _ cut).trans ⟨fun h e' he' => ?_, fun h => h e rfl⟩⟩
      cases he'
      exact h

/-- A log in which every record that was begun fits or is seen to be damaged reads as some of its
first entries. -/
theorem take_records_legible {F : E → Prop} (hF : ∀ e, F e → c.Fits e) {es : List E} {cut : Nat}
    (h : ∀ e ∈ es.take (c.whole es cut + 1), F e ∨ ¬ c.Passes e (c.record e).length) :
    ∃ j tail, (c.records es).take cut = c.records (es.take j) ++ tail ∧
      (∀ e ∈ es.take j, F e) ∧ c.readRecord tail = none := by
  induction es generalizing cut with
  | nil => exact ⟨0, [], take_nil, List.forall_mem_nil _, readRecord_nil⟩
  | cons e es ih =>
    by_cases hpass : c.Passes e cut
    · have hfits := (h e mem_cons_self).resolve_right (not_not.mpr hpass.record)
      have hcut := hpass.length_le (hF e hfits).length
      rw [whole, if_pos hcut] at h
      obtain ⟨j, tail, htail, hall, hnone⟩ := ih fun e' he' => h e' (mem_cons_of_mem e he')
      refine ⟨j + 1, tail, ?_, List.forall_mem_cons.mpr ⟨hfits, hall⟩, hnone⟩
      rw [records_cons, take_append, take_of_length_le hcut, htail, take_succ_cons, records_cons,
        append_assoc]
    · exact ⟨0, _, rfl, List.forall_mem_nil _, (readRecord_take_record e _ cut).mpr hpass⟩

end Codec

end Flotilla
