/-
  Coding — the byte formats that the stores and the wire share:
  `common/coding.h` and `common/crc32.cc`.

  Integers are little-endian and of fixed width; what does not fit is cut off,
  as `static_cast` does.  A `Decoder` reads a buffer front to back and remembers
  underflow instead of failing.
-/
import Flotilla.Common

namespace Flotilla

/-! ## Integers. -/

/-- The low `width` bytes of `n`, least significant first. -/
def putFixed : Nat → Nat → Bytes
  | 0, _ => []
  | width + 1, n => UInt8.ofNat n :: putFixed width (n / 256)

def putFixed8 (v : Nat) : Bytes := putFixed 1 v

def putFixed32 (v : Nat) : Bytes := putFixed 4 v

def putFixed64 (v : Nat) : Bytes := putFixed 8 v

/-- `DecodeFixed*`: the number that the bytes spell. -/
def decodeFixed : Bytes → Nat
  | [] => 0
  | b :: bytes => b.toNat + 256 * decodeFixed bytes

@[simp] theorem length_putFixed (width n : Nat) : (putFixed width n).length = width := by
  induction width generalizing n with
  | zero => rfl
  | succ width ih =>
    rw [putFixed, length_cons, ih]

theorem decodeFixed_putFixed (width n : Nat) :
    decodeFixed (putFixed width n) = n % 256 ^ width := by
  induction width generalizing n with
  | zero => rw [putFixed, decodeFixed, Nat.pow_zero, Nat.mod_one]
  | succ width ih =>
    rw [putFixed, decodeFixed, ih, UInt8.toNat_ofNat']
    show n % 256 + 256 * (n / 256 % 256 ^ width) = n % 256 ^ (width + 1)
    rw [Nat.pow_succ', Nat.mod_mul]

theorem decodeFixed_lt (bytes : Bytes) : decodeFixed bytes < 256 ^ bytes.length := by
  induction bytes with
  | nil => exact Nat.one_pos
  | cons b bytes ih =>
    have hb : b.toNat < 256 := b.toNat_lt
    rw [decodeFixed, length_cons, Nat.pow_succ]
    omega

/-- `PutLengthPrefixed`: the length in 32 bits, then the bytes. -/
def putLengthPrefixed (s : Bytes) : Bytes := putFixed32 s.length ++ s

@[simp] theorem length_putFixed8 (v : Nat) : (putFixed8 v).length = 1 := length_putFixed 1 v

@[simp] theorem length_putFixed32 (v : Nat) : (putFixed32 v).length = 4 := length_putFixed 4 v

@[simp] theorem length_putFixed64 (v : Nat) : (putFixed64 v).length = 8 := length_putFixed 8 v

@[simp] theorem length_putLengthPrefixed (s : Bytes) :
    (putLengthPrefixed s).length = 4 + s.length := by
  rw [putLengthPrefixed, length_append, length_putFixed32]

/-! ## The decoder. -/

structure Decoder where
  rest : Bytes
  failed : Bool := false

namespace Decoder

def ok (d : Decoder) : Bool := !d.failed

def remaining (d : Decoder) : Nat := d.rest.length

/-- `Have` and `Advance`: nothing, and failure, when fewer than `n` bytes are left. -/
def bytes (d : Decoder) (n : Nat) : Bytes × Decoder :=
  if d.failed = true ∨ d.rest.length < n then ([], { d with failed := true })
  else (d.rest.take n, { d with rest := d.rest.drop n })

/-- `U8`, `U16`, `U32`, `U64`; zero on underflow. -/
def fixed (d : Decoder) (width : Nat) : Nat × Decoder :=
  (decodeFixed (d.bytes width).1, (d.bytes width).2)

def u8 (d : Decoder) : Nat × Decoder := d.fixed 1

def u32 (d : Decoder) : Nat × Decoder := d.fixed 4

def u64 (d : Decoder) : Nat × Decoder := d.fixed 8

/-- `LengthPrefixed` and `Str`. -/
def lengthPrefixed (d : Decoder) : Bytes × Decoder := d.u32.2.bytes d.u32.1

theorem bytes_append (s rest : Bytes) :
    (⟨s ++ rest, false⟩ : Decoder).bytes s.length = (s, ⟨rest, false⟩) := by
  have henough : ¬ ((false : Bool) = true ∨ (s ++ rest).length < s.length) := by
    rw [length_append]
    simp
  unfold bytes
  rw [if_neg henough, take_left, drop_left]

theorem fixed_putFixed (width n : Nat) (rest : Bytes) :
    (⟨putFixed width n ++ rest, false⟩ : Decoder).fixed width = (n % 256 ^ width, ⟨rest, false⟩) := by
  have hbytes := bytes_append (putFixed width n) rest
  rw [length_putFixed] at hbytes
  unfold fixed
  rw [hbytes, decodeFixed_putFixed]

theorem u8_put {n : Nat} (h : n < 256) (rest : Bytes) :
    (⟨putFixed8 n ++ rest, false⟩ : Decoder).u8 = (n, ⟨rest, false⟩) := by
  have hlt : n < 256 ^ 1 := by omega
  unfold u8 putFixed8
  rw [fixed_putFixed, Nat.mod_eq_of_lt hlt]

theorem u32_put {n : Nat} (h : n < 2 ^ 32) (rest : Bytes) :
    (⟨putFixed32 n ++ rest, false⟩ : Decoder).u32 = (n, ⟨rest, false⟩) := by
  have hlt : n < 256 ^ 4 := by omega
  unfold u32 putFixed32
  rw [fixed_putFixed, Nat.mod_eq_of_lt hlt]

theorem u64_put {n : Nat} (h : n < 2 ^ 64) (rest : Bytes) :
    (⟨putFixed64 n ++ rest, false⟩ : Decoder).u64 = (n, ⟨rest, false⟩) := by
  have hlt : n < 256 ^ 8 := by omega
  unfold u64 putFixed64
  rw [fixed_putFixed, Nat.mod_eq_of_lt hlt]

theorem lengthPrefixed_put {s : Bytes} (h : s.length < 2 ^ 32) (rest : Bytes) :
    (⟨putLengthPrefixed s ++ rest, false⟩ : Decoder).lengthPrefixed = (s, ⟨rest, false⟩) := by
  unfold lengthPrefixed putLengthPrefixed
  rw [append_assoc, u32_put h, bytes_append]

theorem lengthPrefixed_long {s : Bytes} (h : 2 ^ 32 ≤ s.length) (rest : Bytes) :
    (⟨putLengthPrefixed s ++ rest, false⟩ : Decoder).lengthPrefixed =
      ((s ++ rest).take (s.length % 2 ^ 32), ⟨(s ++ rest).drop (s.length % 2 ^ 32), false⟩) := by
  have hlen : (⟨putFixed32 s.length ++ (s ++ rest), false⟩ : Decoder).u32 =
      (s.length % 2 ^ 32, ⟨s ++ rest, false⟩) := fixed_putFixed 4 s.length (s ++ rest)
  unfold lengthPrefixed putLengthPrefixed
  rw [append_assoc, hlen]
  unfold bytes
  apply if_neg
  simp only [Bool.false_eq_true, false_or, length_append]
  omega

/-- A read that does not fail takes what it was asked for. -/
theorem bytes_ok {d : Decoder} {n : Nat} (h : (d.bytes n).2.failed = false) :
    d.failed = false ∧ (d.bytes n).1.length + (d.bytes n).2.rest.length = d.rest.length ∧
      (d.bytes n).1.length = n := by
  unfold bytes at h ⊢
  split at h
  · cases h
  · rename_i henough
    rw [if_neg henough]
    refine ⟨h, ?_, ?_⟩
    · show (d.rest.take n).length + (d.rest.drop n).length = _
      rw [← length_append, take_append_drop]
    · show (d.rest.take n).length = n
      rw [length_take]
      omega

theorem length_bytes_le (d : Decoder) (n : Nat) : (d.bytes n).1.length ≤ n := by
  unfold bytes
  split
  · exact Nat.zero_le n
  · exact length_take_le n d.rest

theorem u32_lt (d : Decoder) : d.u32.1 < 2 ^ 32 :=
  calc d.u32.1 < 256 ^ (d.bytes 4).1.length := decodeFixed_lt _
    _ ≤ 256 ^ 4 := Nat.pow_le_pow_right (by decide) (d.length_bytes_le 4)
    _ = 2 ^ 32 := by decide

theorem length_lengthPrefixed (d : Decoder) : d.lengthPrefixed.1.length < 2 ^ 32 :=
  (d.u32.2.length_bytes_le _).trans_lt d.u32_lt

end Decoder

/-! ## Checksums. -/

/-- One bit of the division by the reflected polynomial. -/
def crcShift (c : UInt32) : UInt32 :=
  if c &&& 1 = 1 then (0xEDB88320 : UInt32) ^^^ (c >>> 1) else c >>> 1

/-- One entry of `MakeTable`. -/
def crcTable (i : UInt32) : UInt32 := (List.range 8).foldl (fun c _ => crcShift c) i

def crc32 (data : Bytes) : UInt32 :=
  let crc := data.foldl
    (fun crc c => crcTable ((crc ^^^ c.toUInt32) &&& 0xFF) ^^^ (crc >>> 8)) 0xFFFFFFFF
  crc ^^^ 0xFFFFFFFF

-- the check value of CRC-32
example : crc32 [49, 50, 51, 52, 53, 54, 55, 56, 57] = 0xCBF43926 := by decide +kernel

end Flotilla
