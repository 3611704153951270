/-
  Storage.Bloom — the filter of a table, `storage/bloom.cc`.

  A filter is a count of probes, a count of bits, and the bits.  Both counts are
  stored in 32 bits; as long as the number of bits fits, a key that went into the
  filter is found in it (`bloomMayContain_build`).
-/
import Flotilla.Coding

namespace Flotilla.Storage

/-! ## Hashes and bits. -/

def fnv1a64 (s : Bytes) : UInt64 :=
  s.foldl (fun h c => (h ^^^ c.toUInt64) * 0x100000001b3) 0xcbf29ce484222325

def hashes (key : Bytes) : UInt64 × UInt64 :=
  let h := fnv1a64 key
  let h2 := (h >>> 33) ||| (h <<< 31)
  (h, if h2 = 0 then 0x9e3779b97f4a7c15 else h2)

/-- Double hashing: `(h1 + i * h2) % nbits`. -/
def probe (key : Bytes) (nbits i : Nat) : Nat :=
  ((hashes key).1 + UInt64.ofNat i * (hashes key).2).toNat % nbits

def bitMask (bit : Nat) : UInt8 := 1 <<< UInt8.ofNat (bit % 8)

def setBit (bits : Bytes) (bit : Nat) : Bytes :=
  bits.modify (bit / 8) (· ||| bitMask bit)

def testBit (bits : Bytes) (bit : Nat) : Bool := bits.getD (bit / 8) 0 &&& bitMask bit ≠ 0

theorem bitMask_ne_zero (bit : Nat) : bitMask bit ≠ 0 := by
  have hall : ∀ i : Fin 8, (1 <<< UInt8.ofNat i.val : UInt8) ≠ 0 := by decide
  exact hall ⟨bit % 8, Nat.mod_lt bit (by decide)⟩

theorem and_or_ne_zero {a b m : UInt8} (h : a &&& m ≠ 0 ∨ b &&& m ≠ 0) : (a ||| b) &&& m ≠ 0 := by
  have hdistrib : (a ||| b) &&& m = (a &&& m) ||| (b &&& m) := by
    apply UInt8.toBitVec_inj.mp
    ext i
    simp [Bool.and_or_distrib_right]
  intro hzero
  rw [hdistrib] at hzero
  obtain ⟨ha, hb⟩ := UInt8.or_eq_zero_iff.mp hzero
  exact h.elim (fun hne => hne ha) (fun hne => hne hb)

@[simp] theorem length_setBit (bits : Bytes) (bit : Nat) : (setBit bits bit).length = bits.length :=
  List.length_modify ..

theorem getD_setBit (bits : Bytes) (bit i : Nat) :
    (setBit bits bit).getD i 0 =
      if bit / 8 = i ∧ i < bits.length then bits.getD i 0 ||| bitMask bit else bits.getD i 0 := by
  unfold setBit
  rw [List.getD_eq_getElem?_getD, List.getD_eq_getElem?_getD, List.getElem?_modify]
  by_cases hi : i < bits.length
  · rw [getElem?_eq_getElem hi]
    by_cases hbit : bit / 8 = i <;> simp [hbit, hi]
  · rw [List.getElem?_eq_none (Nat.le_of_not_lt hi)]
    simp [hi]

theorem testBit_setBit {bits : Bytes} {bit : Nat} (bit' : Nat) (h : testBit bits bit = true) :
    testBit (setBit bits bit') bit = true := by
  unfold testBit at h ⊢
  rw [getD_setBit]
  split
  · simp only [decide_eq_true_eq] at h ⊢
    exact and_or_ne_zero (.inl h)
  · exact h

theorem testBit_setBit_self {bits : Bytes} {bit : Nat} (h : bit / 8 < bits.length) :
    testBit (setBit bits bit) bit = true := by
  unfold testBit
  rw [getD_setBit, if_pos ⟨rfl, h⟩]
  simp only [decide_eq_true_eq]
  apply and_or_ne_zero
  right
  rw [UInt8.and_self]
  exact bitMask_ne_zero bit

/-! ## Filters. -/

/-- `static_cast<uint32_t>(bits_per_key * 0.69)`, kept between 1 and 30. -/
def bloomProbes (bitsPerKey : Nat) : Nat := max 1 (min 30 (bitsPerKey * 69 / 100))

def bloomSize (keys bitsPerKey : Nat) : Nat := (max 64 (keys * bitsPerKey) + 7) / 8

def setKey (k nbits : Nat) (bits : Bytes) (key : Bytes) : Bytes :=
  (List.range k).foldl (fun bits i => setBit bits (probe key nbits i)) bits

def buildBloom (keys : List Bytes) (bitsPerKey : Nat) : Bytes :=
  let k := bloomProbes bitsPerKey
  let size := bloomSize keys.length bitsPerKey
  let nbits := size * 8
  putFixed32 k ++ (putFixed32 nbits ++ keys.foldl (setKey k nbits) (List.replicate size 0))

def bloomMayContain (filter key : Bytes) : Bool :=
  if filter.length < 8 then true
  else
    let k := decodeFixed (filter.take 4)
    let nbits := decodeFixed ((filter.drop 4).take 4)
    if nbits = 0 ∨ filter.length - 8 < (nbits + 7) / 8 then true
    else (List.range k).all (fun i => testBit (filter.drop 8) (probe key nbits i))

/-! ## No false negatives. -/

section

variable {nbits : Nat}

theorem length_foldl_setBit (bits : Bytes) (key : Bytes) (is : List Nat) :
    (is.foldl (fun bits i => setBit bits (probe key nbits i)) bits).length = bits.length := by
  induction is generalizing bits with
  | nil => rfl
  | cons i is ih =>
    rw [foldl_cons, ih, length_setBit]

@[simp] theorem length_setKey (k : Nat) (bits key : Bytes) :
    (setKey k nbits bits key).length = bits.length := length_foldl_setBit bits key _

@[simp] theorem length_foldl_setKey (k : Nat) (bits : Bytes) (keys : List Bytes) :
    (keys.foldl (setKey k nbits) bits).length = bits.length := by
  induction keys generalizing bits with
  | nil => rfl
  | cons key keys ih =>
    rw [foldl_cons, ih, length_setKey]

theorem testBit_foldl_setBit {bits : Bytes} {bit : Nat} (key : Bytes) (is : List Nat)
    (h : testBit bits bit = true) :
    testBit (is.foldl (fun bits i => setBit bits (probe key nbits i)) bits) bit = true := by
  induction is generalizing bits with
  | nil => exact h
  | cons i is ih => exact ih (testBit_setBit _ h)

theorem testBit_foldl_setKey {bits : Bytes} {bit : Nat} (k : Nat) (keys : List Bytes)
    (h : testBit bits bit = true) : testBit (keys.foldl (setKey k nbits) bits) bit = true := by
  induction keys generalizing bits with
  | nil => exact h
  | cons key keys ih => exact ih (testBit_foldl_setBit key _ h)

theorem testBit_probe {bits : Bytes} (hnbits : 0 < nbits) (hsize : bits.length * 8 = nbits)
    (key : Bytes) {is : List Nat} {i : Nat} (hi : i ∈ is) :
    testBit (is.foldl (fun bits i => setBit bits (probe key nbits i)) bits) (probe key nbits i) =
      true := by
  induction is generalizing bits with
  | nil => cases hi
  | cons j is ih =>
    rw [foldl_cons]
    by_cases hij : i = j
    · have hprobe : probe key nbits i < nbits := Nat.mod_lt _ hnbits
      subst hij
      apply testBit_foldl_setBit
      apply testBit_setBit_self
      omega
    · apply ih
      · rw [length_setBit]
        exact hsize
      · exact (mem_cons.mp hi).resolve_left hij

theorem testBit_foldl_setKey_probe {bits : Bytes} {k i : Nat} (hnbits : 0 < nbits)
    (hsize : bits.length * 8 = nbits) (hi : i < k) {keys : List Bytes} {key : Bytes}
    (hkey : key ∈ keys) :
    testBit (keys.foldl (setKey k nbits) bits) (probe key nbits i) = true := by
  induction keys generalizing bits with
  | nil => cases hkey
  | cons key' keys ih =>
    rw [foldl_cons]
    by_cases hsame : key = key'
    · subst hsame
      apply testBit_foldl_setKey
      exact testBit_probe hnbits hsize key (List.mem_range.mpr hi)
    · apply ih
      · rw [length_setKey]
        exact hsize
      · exact (mem_cons.mp hkey).resolve_left hsame

end

theorem bloomProbes_lt (bitsPerKey : Nat) : bloomProbes bitsPerKey < 2 ^ 32 := by
  unfold bloomProbes
  omega

theorem length_buildBloom (keys : List Bytes) (bitsPerKey : Nat) :
    (buildBloom keys bitsPerKey).length = 8 + bloomSize keys.length bitsPerKey := by
  unfold buildBloom
  simp only [length_append, length_putFixed32, length_foldl_setKey, length_replicate]
  omega

theorem bloomMayContain_build {keys : List Bytes} {bitsPerKey : Nat}
    (hfits : bloomSize keys.length bitsPerKey * 8 < 2 ^ 32) {key : Bytes} (hkey : key ∈ keys) :
    bloomMayContain (buildBloom keys bitsPerKey) key = true := by
  have hlength := length_buildBloom keys bitsPerKey
  unfold bloomMayContain
  rw [if_neg (by omega)]
  -- the two fields read back as they were written
  have hk : decodeFixed ((buildBloom keys bitsPerKey).take 4) = bloomProbes bitsPerKey := by
    unfold buildBloom putFixed32
    rw [take_left' (length_putFixed 4 _), decodeFixed_putFixed]
    exact Nat.mod_eq_of_lt (bloomProbes_lt bitsPerKey)
  have hnbits : decodeFixed (((buildBloom keys bitsPerKey).drop 4).take 4) =
      bloomSize keys.length bitsPerKey * 8 := by
    unfold buildBloom putFixed32
    rw [drop_left' (length_putFixed 4 _), take_left' (length_putFixed 4 _), decodeFixed_putFixed]
    exact Nat.mod_eq_of_lt hfits
  have hbits : (buildBloom keys bitsPerKey).drop 8 =
      keys.foldl (setKey (bloomProbes bitsPerKey) (bloomSize keys.length bitsPerKey * 8))
        (List.replicate (bloomSize keys.length bitsPerKey) 0) := by
    unfold buildBloom
    rw [← append_assoc, drop_left']
    rw [length_append, length_putFixed32, length_putFixed32]
  dsimp only
  rw [hk, hnbits, hbits]
  split
  · rfl
  · apply all_eq_true.mpr
    intro i hi
    apply testBit_foldl_setKey_probe (by omega) _ (List.mem_range.mp hi) hkey
    rw [length_replicate]

end Flotilla.Storage
