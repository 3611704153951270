/-
  Txn.Codec — the transactional keyspace as bytes, `txn/codec.cc`.

  A key of the space is a two-byte prefix, the escaped user key, and for write
  and data records a timestamp.  Escaping writes 0x00 as 00 FF and ends the key
  with 00 01, so that what follows the terminator never decides an order that
  the user keys decide; the timestamp is inverted, so newer versions come first.
-/
import Flotilla.Coding
import Flotilla.Lib.ByteKeys

namespace Flotilla.Txn.Codec

/-! ## Escaped keys. -/

def escapeByte (c : UInt8) : Bytes := if c = 0 then [0, 0xff] else [c]

/-- `EscapeKey` without the terminator: the bound that a scan seeks to. -/
def escapeBody (userKey : Bytes) : Bytes := userKey.flatMap escapeByte

def escapeKey (userKey : Bytes) : Bytes := escapeBody userKey ++ [0, 1]

/-- The user key and the number of bytes consumed. -/
def unescapeKey : Bytes → Option (Bytes × Nat)
  | [] => none
  | [_] => none
  | c :: d :: data =>
      if c ≠ 0 then (unescapeKey (d :: data)).map (fun r => (c :: r.1, r.2 + 1))
      else if d = 1 then some ([], 2)
      else if d = 0xff then (unescapeKey data).map (fun r => (0 :: r.1, r.2 + 2))
      else none

/-! ## Keys. -/

/-- "!l" -/
def kLockPrefix : Bytes := [33, 108]

/-- "!w" -/
def kWritePrefix : Bytes := [33, 119]

/-- "!d" -/
def kDataPrefix : Bytes := [33, 100]

/-- `AppendInvertedTs` -/
def invertedTs (ts : UInt64) : Bytes := putBigEndian 8 (~~~ts).toNat

def readInvertedTs (bytes : Bytes) : UInt64 := ~~~(UInt64.ofNat (readBigEndian bytes))

def lockKey (userKey : Bytes) : Bytes := kLockPrefix ++ escapeKey userKey

def writeKey (userKey : Bytes) (commitTs : UInt64) : Bytes :=
  kWritePrefix ++ escapeKey userKey ++ invertedTs commitTs

def dataKey (userKey : Bytes) (startTs : UInt64) : Bytes :=
  kDataPrefix ++ escapeKey userKey ++ invertedTs startTs

/-- The user key and the commit timestamp. -/
def parseWriteKey (key : Bytes) : Option (Bytes × UInt64) :=
  if key.take 2 ≠ kWritePrefix then none
  else
    match unescapeKey (key.drop 2) with
    | none => none
    | some (userKey, consumed) =>
        let rest := key.drop (2 + consumed)
        if rest.length ≠ 8 then none else some (userKey, readInvertedTs rest)

/-! ## Records. -/

structure LockRecord where
  startTs : UInt64 := 0
  /-- 1 put, 2 delete -/
  op : UInt8 := 0
  wallMs : UInt64 := 0
  primary : Bytes := []
  deriving DecidableEq

def kWritePut : UInt8 := 1

def kWriteDelete : UInt8 := 2

def kWriteRollback : UInt8 := 3

structure WriteRecord where
  kind : UInt8 := kWritePut
  startTs : UInt64 := 0
  deriving DecidableEq

def encodeLock (lock : LockRecord) : Bytes :=
  putFixed64 lock.startTs.toNat ++ putFixed8 lock.op.toNat ++ putFixed64 lock.wallMs.toNat ++
    putLengthPrefixed lock.primary

def decodeLock (data : Bytes) : Option LockRecord :=
  let startTs := (⟨data, false⟩ : Decoder).u64
  let op := startTs.2.u8
  let wallMs := op.2.u64
  let primary := wallMs.2.lengthPrefixed
  if primary.2.ok ∧ primary.2.remaining = 0 then
    some ⟨UInt64.ofNat startTs.1, UInt8.ofNat op.1, UInt64.ofNat wallMs.1, primary.1⟩
  else none

def encodeWrite (write : WriteRecord) : Bytes :=
  putFixed8 write.kind.toNat ++ putFixed64 write.startTs.toNat

def decodeWrite (data : Bytes) : Option WriteRecord :=
  let kind := (⟨data, false⟩ : Decoder).u8
  let startTs := kind.2.u64
  if startTs.2.ok ∧ startTs.2.remaining = 0 ∧ 1 ≤ kind.1 ∧ kind.1 ≤ 3 then
    some ⟨UInt8.ofNat kind.1, UInt64.ofNat startTs.1⟩
  else none

theorem decodeLock_encodeLock {lock : LockRecord} (h : lock.primary.length < 2 ^ 32) :
    decodeLock (encodeLock lock) = some lock := by
  have hprimary := Decoder.lengthPrefixed_put h []
  rw [append_nil] at hprimary
  unfold decodeLock encodeLock
  simp only [append_assoc, Decoder.u64_put lock.startTs.toNat_lt,
    Decoder.u8_put lock.op.toNat_lt, Decoder.u64_put lock.wallMs.toNat_lt, hprimary,
    UInt64.ofNat_toNat, UInt8.ofNat_toNat]
  exact if_pos ⟨rfl, rfl⟩

theorem decodeWrite_encodeWrite {write : WriteRecord} (hlow : 1 ≤ write.kind)
    (hhigh : write.kind ≤ 3) : decodeWrite (encodeWrite write) = some write := by
  have hts := Decoder.u64_put write.startTs.toNat_lt []
  rw [append_nil] at hts
  unfold decodeWrite encodeWrite
  simp only [Decoder.u8_put write.kind.toNat_lt, hts, UInt64.ofNat_toNat, UInt8.ofNat_toNat]
  exact if_pos ⟨rfl, rfl, UInt8.le_iff_toNat_le.mp hlow, UInt8.le_iff_toNat_le.mp hhigh⟩

/-! ## Reading keys back. -/

theorem escapeBody_cons (c : UInt8) (userKey : Bytes) :
    escapeBody (c :: userKey) = escapeByte c ++ escapeBody userKey := flatMap_cons

theorem unescapeKey_append (userKey rest : Bytes) :
    unescapeKey (escapeKey userKey ++ rest) = some (userKey, (escapeKey userKey).length) := by
  induction userKey with
  | nil => rfl
  | cons c userKey ih =>
    have hne : ∃ d data, escapeKey userKey ++ rest = d :: data := by
      cases h : escapeKey userKey ++ rest with
      | nil => simp [escapeKey] at h
      | cons d data => exact ⟨d, data, rfl⟩
    by_cases hc : c = 0
    · have hkey : escapeKey (c :: userKey) = 0 :: 0xff :: escapeKey userKey := by
        simp [escapeKey, escapeBody_cons, escapeByte, hc]
      rw [hkey, cons_append, cons_append, unescapeKey, if_neg (by simp),
        if_neg (by decide), if_pos rfl, ih, hc]
      rfl
    · have hkey : escapeKey (c :: userKey) = c :: escapeKey userKey := by
        simp [escapeKey, escapeBody_cons, escapeByte, hc]
      obtain ⟨d, data, hdata⟩ := hne
      rw [hkey, cons_append, hdata, unescapeKey, if_pos hc, ← hdata, ih]
      rfl

theorem readInvertedTs_invertedTs (ts : UInt64) : readInvertedTs (invertedTs ts) = ts := by
  have hlt : (~~~ts).toNat < 256 ^ 8 := (~~~ts).toNat_lt
  unfold readInvertedTs invertedTs
  rw [readBigEndian_put hlt, UInt64.ofNat_toNat, UInt64.not_not]

theorem parseWriteKey_writeKey (userKey : Bytes) (commitTs : UInt64) :
    parseWriteKey (writeKey userKey commitTs) = some (userKey, commitTs) := by
  have hdrop : (writeKey userKey commitTs).drop 2 = escapeKey userKey ++ invertedTs commitTs := by
    simp [writeKey, kWritePrefix]
  have htake : (writeKey userKey commitTs).take 2 = kWritePrefix := rfl
  have hrest : (writeKey userKey commitTs).drop (2 + (escapeKey userKey).length) =
      invertedTs commitTs := by
    rw [← drop_drop, hdrop, drop_left]
  have hlen : (invertedTs commitTs).length = 8 := length_putBigEndian 8 _
  unfold parseWriteKey
  rw [if_neg (not_not.mpr htake), hdrop, unescapeKey_append]
  dsimp only
  rw [hrest, if_neg (not_not.mpr hlen), readInvertedTs_invertedTs]

/-! ## The order of the keys. -/

theorem escape_lt_escape {a b : Bytes} (h : a < b) (s t : Bytes) :
    escapeKey a ++ s < escapeBody b ++ t := by
  induction a generalizing b with
  | nil =>
    cases b with
    | nil => exact absurd h (lt_irrefl _)
    | cons c b =>
      show (0 : UInt8) :: 1 :: s < escapeBody (c :: b) ++ t
      rw [escapeBody_cons]
      by_cases hc : c = 0
      · rw [hc]
        exact cons_lt_cons_iff.mpr (.inr ⟨rfl, cons_lt_cons_iff.mpr (.inl (by decide))⟩)
      · have hpos : 0 < c := UInt8.pos_iff_ne_zero.mpr hc
        rw [escapeByte, if_neg hc]
        exact cons_lt_cons_iff.mpr (.inl hpos)
  | cons x a ih =>
    cases b with
    | nil => exact absurd h (not_lt_nil _)
    | cons y b =>
      unfold escapeKey
      rw [escapeBody_cons, escapeBody_cons]
      cases cons_lt_cons_iff.mp h with
      | inl hxy =>
        -- the greater byte is not zero, so it is not escaped
        have hy : y ≠ 0 := UInt8.pos_iff_ne_zero.mp (lt_of_le_of_lt (UInt8.zero_le) hxy)
        rw [escapeByte, escapeByte, if_neg hy]
        by_cases hx : x = 0
        · rw [if_pos hx]
          exact cons_lt_cons_iff.mpr (.inl (UInt8.pos_iff_ne_zero.mpr hy))
        · rw [if_neg hx]
          exact cons_lt_cons_iff.mpr (.inl hxy)
      | inr hab =>
        rw [hab.1]
        simp only [append_assoc]
        rw [append_lt_append_iff, ← append_assoc]
        exact ih hab.2

theorem le_append (p s : Bytes) : p ≤ p ++ s := by
  have hnot : ¬ p ++ s < p ++ [] := by
    rw [append_lt_append_iff]
    exact not_lt_nil s
  rw [append_nil] at hnot
  exact not_lt.mp hnot

theorem escapeBody_le_iff (start userKey s : Bytes) :
    escapeBody start ≤ escapeKey userKey ++ s ↔ start ≤ userKey := by
  constructor
  · intro hle
    by_contra hlt
    have habove := escape_lt_escape (not_le.mp hlt) s []
    rw [append_nil] at habove
    exact absurd hle (not_le.mpr habove)
  · intro hle
    cases lt_or_eq_of_le hle with
    | inl hlt =>
      have hbelow := escape_lt_escape hlt [] ([0, 1] ++ s)
      rw [append_nil, ← append_assoc] at hbelow
      exact (le_append (escapeBody start) [0, 1]).trans (le_of_lt hbelow)
    | inr heq =>
      rw [heq]
      show escapeBody userKey ≤ escapeBody userKey ++ [0, 1] ++ s
      rw [append_assoc]
      exact le_append _ _

theorem escapeKey_lt_iff {a b : Bytes} (hne : a ≠ b) (s t : Bytes) :
    escapeKey a ++ s < escapeKey b ++ t ↔ a < b := by
  have hless : ∀ {a b : Bytes} (s t : Bytes), a < b → escapeKey a ++ s < escapeKey b ++ t := by
    intro a b s t h
    have hlt := escape_lt_escape h s ([0, 1] ++ t)
    rw [← append_assoc] at hlt
    exact hlt
  constructor
  · intro h
    cases lt_or_gt_of_ne hne with
    | inl hlt => exact hlt
    | inr hgt => exact absurd (hless t s hgt) (lt_asymm h)
  · exact hless s t

theorem escapeKey_append_inj {a b s t : Bytes} (h : escapeKey a ++ s = escapeKey b ++ t) :
    a = b ∧ s = t := by
  have hab : a = b := by
    by_contra hne
    cases lt_or_gt_of_ne hne with
    | inl hlt => exact absurd h (ne_of_lt ((escapeKey_lt_iff hne s t).mpr hlt))
    | inr hgt => exact absurd h.symm (ne_of_lt ((escapeKey_lt_iff (Ne.symm hne) t s).mpr hgt))
  rw [hab] at h
  exact ⟨hab, append_cancel_left h⟩

theorem invertedTs_lt_iff (a b : UInt64) : invertedTs a < invertedTs b ↔ b < a := by
  have ha : (~~~a).toNat < 256 ^ 8 := (~~~a).toNat_lt
  have hb : (~~~b).toNat < 256 ^ 8 := (~~~b).toNat_lt
  have hna := a.toNat_lt
  unfold invertedTs
  rw [putBigEndian_lt_iff ha hb, UInt64.toNat_not, UInt64.toNat_not, UInt64.lt_iff_toNat_lt]
  show 2 ^ 64 - 1 - a.toNat < 2 ^ 64 - 1 - b.toNat ↔ _
  omega

/-! ## Whole keys. -/

theorem eq_of_unescapeKey {data userKey : Bytes} {consumed : Nat}
    (h : unescapeKey data = some (userKey, consumed)) :
    ∃ rest, data = escapeKey userKey ++ rest ∧ consumed = (escapeKey userKey).length := by
  fun_induction unescapeKey data generalizing userKey consumed with
  | case1 => cases h
  | case2 => cases h
  | case3 c d data hc ih =>
    obtain ⟨r, hr, heq⟩ := map_eq_some_iff.mp h
    cases heq
    obtain ⟨rest, hdata, hlen⟩ := ih hr
    have hkey : escapeKey (c :: r.1) = c :: escapeKey r.1 := by
      simp [escapeKey, escapeBody_cons, escapeByte, hc]
    refine ⟨rest, ?_, ?_⟩
    · rw [hkey, hdata]
      rfl
    · rw [hkey, length_cons, hlen]
  | case4 c data hc =>
    cases h
    exact ⟨data, by rw [not_not.mp hc]; rfl, rfl⟩
  | case5 c data hc hd ih =>
    obtain ⟨r, hr, heq⟩ := map_eq_some_iff.mp h
    cases heq
    obtain ⟨rest, hdata, hlen⟩ := ih hr
    have hkey : escapeKey (0 :: r.1) = 0 :: 0xff :: escapeKey r.1 := by
      simp [escapeKey, escapeBody_cons, escapeByte]
    refine ⟨rest, ?_, ?_⟩
    · rw [hkey, hdata, not_not.mp hc]
      rfl
    · rw [hkey, length_cons, length_cons, hlen]
  | case6 => cases h

theorem invertedTs_readInvertedTs {bytes : Bytes} (h : bytes.length = 8) :
    invertedTs (readInvertedTs bytes) = bytes := by
  have hlt : readBigEndian bytes < 2 ^ 64 := by
    have := readBigEndian_lt bytes
    rw [h] at this
    omega
  unfold invertedTs readInvertedTs
  rw [UInt64.not_not, UInt64.toNat_ofNat_of_lt' hlt, ← h, putBigEndian_read]

theorem writeKey_of_parseWriteKey {key userKey : Bytes} {ts : UInt64}
    (h : parseWriteKey key = some (userKey, ts)) : key = writeKey userKey ts := by
  unfold parseWriteKey at h
  split at h
  · cases h
  · rename_i hfront
    split at h
    · cases h
    · rename_i k consumed hkey
      dsimp only at h
      split at h
      · cases h
      · rename_i hlen
        cases h
        obtain ⟨rest, hdata, hconsumed⟩ := eq_of_unescapeKey hkey
        have hrest : key.drop (2 + consumed) = rest := by
          rw [← drop_drop, hdata, hconsumed, drop_left]
        rw [hrest, writeKey, append_assoc,
          invertedTs_readInvertedTs (hrest ▸ not_not.mp hlen), ← hdata, ← not_not.mp hfront,
          take_append_drop]

theorem stamped_lt_iff (p a b : Bytes) (s t : UInt64) :
    p ++ escapeKey a ++ invertedTs s < p ++ escapeKey b ++ invertedTs t ↔
      a < b ∨ a = b ∧ t < s := by
  rw [append_assoc, append_assoc, append_lt_append_iff]
  by_cases hab : a = b
  · rw [hab, append_lt_append_iff, invertedTs_lt_iff]
    simp
  · rw [escapeKey_lt_iff hab]
    simp [hab]

theorem seek_le_iff (p start userKey s : Bytes) :
    (p ++ escapeKey start).take ((p ++ escapeKey start).length - 2) ≤
      p ++ escapeKey userKey ++ s ↔ start ≤ userKey := by
  have hseek : (p ++ escapeKey start).take ((p ++ escapeKey start).length - 2) =
      p ++ escapeBody start := by
    unfold escapeKey
    rw [← append_assoc, length_append, length_cons, length_singleton, Nat.add_sub_cancel, take_left]
  rw [hseek, append_assoc, ← not_lt, append_lt_append_iff, not_lt, escapeBody_le_iff]

theorem lockKey_lt_iff {a b : Bytes} : lockKey a < lockKey b ↔ a < b := by
  unfold lockKey
  rw [append_lt_append_iff]
  by_cases hab : a = b
  · rw [hab]
    exact iff_of_false (lt_irrefl _) (lt_irrefl _)
  · have hlt := escapeKey_lt_iff hab [] []
    rw [append_nil, append_nil] at hlt
    exact hlt

/-- **Transactional keys keep the order and are uniquely decodable.** -/
theorem txnKeys_ordered (a b : Bytes) (s t : UInt64) :
    (writeKey a s < writeKey b t ↔ a < b ∨ a = b ∧ t < s) ∧
    (dataKey a s < dataKey b t ↔ a < b ∨ a = b ∧ t < s) ∧
    (lockKey a < lockKey b ↔ a < b) ∧
    parseWriteKey (writeKey a s) = some (a, s) ∧
    (∀ x, parseWriteKey x = some (a, s) → x = writeKey a s) ∧
    ∀ p start, let seek := (p ++ escapeKey start).take ((p ++ escapeKey start).length - 2)
      (a < start → ∀ rest, p ++ escapeKey a ++ rest < seek) ∧
      (start ≤ a → ∀ rest, seek ≤ p ++ escapeKey a ++ rest) := by
  refine ⟨stamped_lt_iff _ a b s t, stamped_lt_iff _ a b s t, lockKey_lt_iff,
    parseWriteKey_writeKey a s, fun x => writeKey_of_parseWriteKey,
    fun p start => ⟨fun hlt rest => ?_, fun hle rest => ?_⟩⟩
  · exact not_le.mp fun hle => absurd ((seek_le_iff p start a rest).mp hle) (not_le.mpr hlt)
  · exact (seek_le_iff p start a rest).mpr hle

end Flotilla.Txn.Codec
