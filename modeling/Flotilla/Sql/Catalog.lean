/-
  Sql.Catalog — schemas, rows and their keys (`sql/catalog.h`,
  `sql/catalog.cc`).

  A table's schema is stored under its name, its rows under a prefix made of the
  table id; the primary key follows the prefix in a form that sorts bytewise as
  the values sort.
-/
import Flotilla.Coding
import Flotilla.Lib.ByteKeys
import Flotilla.Sql.Ast

namespace Flotilla.Sql

open Decoder

/-! ## Schemas. -/

/-- `static_cast<int>` of a `size_t`. -/
def castInt (n : Nat) : Int := Int.bmod n (2 ^ 32)

structure TableSchema where
  tableId : Nat
  name : Bytes
  columns : List ColumnDef

/-- `PkIndex`: the first position of a primary key, or -1. -/
def TableSchema.pkIndex (schema : TableSchema) : Int :=
  match schema.columns.findIdx? ColumnDef.isPk with
  | some i => castInt i
  | none => -1

def catalogKey (tableName : Bytes) : Bytes := text "__cat/" ++ tableName

def nextTableIdKey : Bytes := text "__cat_next_id"

def encodeColumn (col : ColumnDef) : Bytes :=
  putLengthPrefixed col.name ++ putFixed8 col.type.code ++ putFixed8 (if col.isPk then 1 else 0)

def encodeSchema (schema : TableSchema) : Bytes :=
  putFixed32 schema.tableId ++ putFixed32 schema.columns.length ++
    schema.columns.flatMap encodeColumn

/-- The loop of `DecodeSchema`, over the columns that are left. -/
def decodeColumns : Nat → Decoder → List ColumnDef × Decoder
  | 0, dec => ([], dec)
  | ncols + 1, dec =>
      if dec.ok then
        let name := dec.lengthPrefixed
        let type := name.2.u8
        let isPk := type.2.u8
        let rest := decodeColumns ncols isPk.2
        (⟨name.1, ValueType.ofCode type.1, isPk.1 ≠ 0⟩ :: rest.1, rest.2)
      else ([], dec)

def decodeSchema (name : Bytes) (data : Bytes) : Option TableSchema :=
  let tableId := (⟨data, false⟩ : Decoder).u32
  let ncols := tableId.2.u32
  let cols := decodeColumns ncols.1 ncols.2
  let schema : TableSchema := ⟨tableId.1, name, cols.1⟩
  if cols.2.ok ∧ cols.2.remaining = 0 ∧ 0 ≤ schema.pkIndex then some schema else none

/-! ## Rows. -/

def tablePrefix (tableId : Nat) : Bytes := text "t" ++ putBigEndian 4 tableId ++ text "r"

/-- The end of a scan over a prefix: `end.back() + 1`. -/
def prefixEnd (start : Bytes) : Bytes := start.dropLast ++ [start.getLastD 0 + 1]

/-- `static_cast<uint64_t>`. -/
def bits (i : Int64) : Nat := i.toUInt64.toNat

/-- A sign-flipped big-endian integer, or the string itself. -/
def encodePkValue : Value → Bytes
  | .int i => putBigEndian 8 (bits i ^^^ 2 ^ 63)
  | .text s => s

def rowKey (tableId : Nat) (pk : Value) : Bytes := tablePrefix tableId ++ encodePkValue pk

def valueBytes : Value → Bytes
  | .int i => putFixed64 (bits i)
  | .text s => s

/-- One value of `EncodeRow`. -/
def encodeValue (value : Value) : Bytes :=
  putFixed8 value.type.code ++ putLengthPrefixed (valueBytes value)

def encodeRow (values : List Value) : Bytes :=
  putFixed32 values.length ++ values.flatMap encodeValue

/-- One value of `DecodeRow`, from its type code and its bytes. -/
def decodeValue (type : Nat) (bytes : Bytes) : Option Value :=
  match ValueType.ofCode type with
  | .int =>
      if bytes.length = 8 then some (.int (UInt64.ofNat (decodeFixed bytes)).toInt64) else none
  | .text => some (.text bytes)

/-- The loop of `DecodeRow`, over the values that are left. -/
def decodeValues : Nat → Decoder → Option (List Value × Decoder)
  | 0, dec => some ([], dec)
  | count + 1, dec =>
      if dec.ok then
        let type := dec.u8
        let bytes := type.2.lengthPrefixed
        match decodeValue type.1 bytes.1 with
        | none => none
        | some value => (decodeValues count bytes.2).map fun rest => (value :: rest.1, rest.2)
      else some ([], dec)

def decodeRow (data : Bytes) (schema : TableSchema) : Option (List Value) :=
  let count := (⟨data, false⟩ : Decoder).u32
  if count.1 ≠ schema.columns.length then none
  else
    match decodeValues count.1 count.2 with
    | none => none
    | some values => if values.2.ok ∧ values.2.remaining = 0 then some values.1 else none

/-! ## What is encoded is read back. -/

/-- A string whose length fits the 32 bits of a prefix. -/
def Fits (s : Bytes) : Prop := s.length < 2 ^ 32

theorem ok_mk (rest : Bytes) : (⟨rest, false⟩ : Decoder).ok = true := rfl

theorem decodeColumns_encode (columns : List ColumnDef) (hfits : ∀ col ∈ columns, Fits col.name)
    (rest : Bytes) :
    decodeColumns columns.length ⟨columns.flatMap encodeColumn ++ rest, false⟩ =
      (columns, ⟨rest, false⟩) := by
  induction columns with
  | nil => rfl
  | cons col columns ih =>
    have hname : Fits col.name := hfits col mem_cons_self
    have hrest := ih fun c hc => hfits c (mem_cons_of_mem col hc)
    have hpk : (if col.isPk = true then 1 else 0) < 256 := by
      split <;> decide
    rw [length_cons, decodeColumns, if_pos (ok_mk _), flatMap_cons, encodeColumn]
    simp only [append_assoc]
    rw [lengthPrefixed_put hname]
    rw [u8_put col.type.code_lt]
    rw [u8_put hpk]
    rw [hrest, ValueType.ofCode_code]
    -- the flag byte is 1 or 0
    cases col with
    | mk name type isPk => cases isPk <;> rfl

variable {schema : TableSchema} {values : List Value} {a b : Value}

theorem TableSchema.pkIndex_nonneg {i : Nat} (hi : i < 2 ^ 31)
    (hpk : (schema.columns[i]?).any ColumnDef.isPk = true) : 0 ≤ schema.pkIndex := by
  obtain ⟨col, hcol, hcolPk⟩ := (any_eq_true _ _).mp hpk
  unfold TableSchema.pkIndex
  cases hfind : schema.columns.findIdx? ColumnDef.isPk with
  | none => exact absurd hcolPk (by simp [List.findIdx?_eq_none_iff.mp hfind col (mem_of_getElem? hcol)])
  | some j =>
    obtain ⟨hj, _, hfirst⟩ := List.findIdx?_eq_some_iff_getElem.mp hfind
    have hle : j ≤ i := by
      by_contra hlt
      obtain ⟨_, rfl⟩ := getElem?_eq_some_iff.mp hcol
      exact hfirst i (by omega) hcolPk
    show 0 ≤ Int.bmod j (2 ^ 32)
    rw [Int.bmod_def]
    omega

/-- A schema with a primary key among its first 2^31 columns is read back. -/
theorem decodeSchema_encodeSchema (hid : schema.tableId < 2 ^ 32)
    (hcount : schema.columns.length < 2 ^ 32) (hfits : ∀ col ∈ schema.columns, Fits col.name)
    (hpk : ∃ i < 2 ^ 31, (schema.columns[i]?).any ColumnDef.isPk = true) :
    decodeSchema schema.name (encodeSchema schema) = some schema := by
  obtain ⟨i, hi, hpk⟩ := hpk
  have hcols := decodeColumns_encode schema.columns hfits []
  rw [append_nil] at hcols
  unfold decodeSchema encodeSchema
  rw [append_assoc, u32_put hid]
  dsimp only
  rw [u32_put hcount]
  dsimp only
  rw [hcols]
  exact if_pos ⟨rfl, rfl, TableSchema.pkIndex_nonneg hi hpk⟩

/-- A table of two columns. -/
def users : TableSchema := ⟨1, text "users", [⟨text "id", .int, true⟩, ⟨text "name", .text, false⟩]⟩

theorem decodeSchema_encodeSchema_users :
    decodeSchema users.name (encodeSchema users) = some users :=
  decodeSchema_encodeSchema (by decide) (by decide) (by unfold Fits; decide +kernel)
    ⟨0, by decide, by decide⟩

theorem bits_lt (i : Int64) : bits i < 2 ^ 64 := i.toUInt64.toNat_lt

/-- The string that a value puts behind a length prefix fits it. -/
def Value.Fits (v : Value) : Prop := Sql.Fits v.s

theorem valueBytes_fits {v : Value} (h : v.Fits) : Fits (valueBytes v) := by
  cases v with
  | int i =>
    show (putFixed64 (bits i)).length < 2 ^ 32
    rw [length_putFixed64]
    decide
  | text s => exact h

theorem decodeValue_valueBytes (v : Value) : decodeValue v.type.code (valueBytes v) = some v := by
  cases v with
  | int i =>
    have hlt : bits i < 256 ^ 8 := by
      have := bits_lt i
      omega
    show (if (putFixed64 (bits i)).length = 8 then
      some (Value.int (UInt64.ofNat (decodeFixed (putFixed64 (bits i)))).toInt64) else none) = _
    rw [if_pos (length_putFixed64 _), putFixed64, decodeFixed_putFixed, Nat.mod_eq_of_lt hlt,
      bits, UInt64.ofNat_toNat]
    exact rfl
  | text s => exact rfl

theorem decodeValues_encode (values : List Value) (hfits : ∀ v ∈ values, v.Fits) (rest : Bytes) :
    decodeValues values.length ⟨values.flatMap encodeValue ++ rest, false⟩ =
      some (values, ⟨rest, false⟩) := by
  induction values with
  | nil => rfl
  | cons v values ih =>
    have hv : Fits (valueBytes v) := valueBytes_fits (hfits v mem_cons_self)
    have hrest := ih fun w hw => hfits w (mem_cons_of_mem v hw)
    rw [length_cons, decodeValues, if_pos (ok_mk _), flatMap_cons, encodeValue]
    simp only [append_assoc]
    rw [u8_put v.type.code_lt]
    rw [lengthPrefixed_put hv, decodeValue_valueBytes, hrest]
    rfl

theorem decodeRow_encodeRow (hcount : values.length = schema.columns.length)
    (hshort : values.length < 2 ^ 32) (hfits : ∀ v ∈ values, v.Fits) :
    decodeRow (encodeRow values) schema = some values := by
  have hvalues := decodeValues_encode values hfits []
  rw [append_nil] at hvalues
  unfold decodeRow encodeRow
  rw [u32_put hshort]
  rw [if_neg (not_not.mpr hcount), hvalues]
  exact if_pos ⟨rfl, rfl⟩

theorem fits_of_decodeValues {count : Nat} {dec dec' : Decoder}
    (h : decodeValues count dec = some (values, dec')) : ∀ v ∈ values, v.Fits := by
  induction count generalizing dec dec' values with
  | zero =>
    cases h
    simp
  | succ count ih =>
    rw [decodeValues] at h
    split at h
    · dsimp only at h
      split at h
      · cases h
      · rename_i value hvalue
        obtain ⟨rest, hrest, heq⟩ := map_eq_some_iff.mp h
        cases heq
        have hfits : value.Fits := by
          unfold decodeValue at hvalue
          split at hvalue
          · split at hvalue
            · cases hvalue
              exact Nat.two_pow_pos 32
            · cases hvalue
          · cases hvalue
            exact length_lengthPrefixed _
        intro v hv
        cases mem_cons.mp hv with
        | inl hhead => exact hhead ▸ hfits
        | inr htail => exact ih hrest v htail
    · cases h
      simp

theorem decodeRow_encodeRow_iff (hcount : values.length = schema.columns.length) :
    decodeRow (encodeRow values) schema = some values ↔
      values.length < 2 ^ 32 ∧ ∀ v ∈ values, v.Fits := by
  refine ⟨fun h => ?_, fun h => decodeRow_encodeRow hcount h.1 h.2⟩
  unfold decodeRow at h
  dsimp only at h
  split at h
  · cases h
  · rename_i hcols
    split at h
    · cases h
    · rename_i read hread
      split at h
      · cases h
        refine ⟨?_, fits_of_decodeValues hread⟩
        -- the count is a 32-bit number
        rw [hcount, ← not_not.mp hcols]
        exact u32_lt _
      · cases h

/-! ## The order of the keys. -/

theorem xor_two_pow {k n : Nat} (h : n < 2 ^ k) : n ^^^ 2 ^ k = 2 ^ k + n := by
  apply Nat.eq_of_testBit_eq
  intro j
  rw [Nat.testBit_xor, Nat.testBit_two_pow]
  rcases Nat.lt_trichotomy j k with hlt | heq | hgt
  · rw [Nat.testBit_two_pow_add_gt hlt, decide_eq_false (Nat.ne_of_gt hlt), Bool.xor_false]
  · rw [heq, Nat.testBit_two_pow_add_eq, decide_eq_true rfl, Bool.xor_true]
  · have hpow : 2 ^ (k + 1) ≤ 2 ^ j := Nat.pow_le_pow_right (by decide) hgt
    rw [Nat.pow_succ] at hpow
    rw [Nat.testBit_lt_two_pow (by omega), Nat.testBit_lt_two_pow (by omega),
      decide_eq_false (Nat.ne_of_lt hgt), Bool.xor_false]

theorem bits_flip (i : Int64) : ((bits i ^^^ 2 ^ 63 : Nat) : Int) = i.toInt + 2 ^ 63 := by
  have hint : i.toInt = if 2 * bits i < 2 ^ 64 then (bits i : Int) else bits i - (2 ^ 64 : Nat) :=
    BitVec.toInt_eq_toNat_cond i.toBitVec
  have hlt := bits_lt i
  by_cases hsmall : bits i < 2 ^ 63
  · rw [xor_two_pow hsmall, hint, if_pos (by omega)]
    omega
  · have hxor : bits i = (bits i - 2 ^ 63) ^^^ 2 ^ 63 := by
      rw [xor_two_pow (by omega)]
      omega
    have hflip : bits i ^^^ 2 ^ 63 = bits i - 2 ^ 63 := by
      rw [hxor, Nat.xor_assoc, Nat.xor_self, Nat.xor_zero, ← hxor]
    rw [hflip, hint, if_neg (by omega)]
    omega

theorem encodePkValue_lt_iff (h : a.type = b.type) :
    encodePkValue a < encodePkValue b ↔ a < b := by
  cases a with
  | int i =>
    cases b with
    | int j =>
      have hi := bits_flip i
      have hj := bits_flip j
      have hbound : ∀ x : Int64, bits x ^^^ 2 ^ 63 < 256 ^ 8 := by
        intro x
        have hx := bits_flip x
        have hlt := x.toInt_lt
        omega
      rw [Value.int_lt_int]
      show putBigEndian 8 _ < putBigEndian 8 _ ↔ _
      rw [putBigEndian_lt_iff (hbound i) (hbound j)]
      omega
    | text t => cases h
  | text s =>
    cases b with
    | int j => cases h
    | text t => exact Value.text_lt_text.symm

theorem encodePkValue_inj (htype : a.type = b.type) (h : encodePkValue a = encodePkValue b) :
    a = b := by
  have hab := encodePkValue_lt_iff htype
  have hba := encodePkValue_lt_iff htype.symm
  rw [h] at hab hba
  have hge : ¬ a < b := fun hlt => lt_irrefl _ (hab.mpr hlt)
  have hle : ¬ b < a := fun hlt => lt_irrefl _ (hba.mpr hlt)
  exact le_antisymm (not_lt.mp hle) (not_lt.mp hge)

theorem rowKey_lt_iff (tableId : Nat) (h : a.type = b.type) :
    rowKey tableId a < rowKey tableId b ↔ a < b := by
  unfold rowKey
  rw [append_lt_append_iff, encodePkValue_lt_iff h]

theorem prefixEnd_tablePrefix (tableId : Nat) :
    prefixEnd (tablePrefix tableId) = text "t" ++ putBigEndian 4 tableId ++ [115] := by
  have htext : text "r" = [114] := by decide +kernel
  unfold prefixEnd tablePrefix
  rw [htext, List.dropLast_concat, List.getLastD_concat]
  exact rfl

theorem mem_tableRange_iff (tableId : Nat) (k : Bytes) :
    tablePrefix tableId ≤ k ∧ k < prefixEnd (tablePrefix tableId) ↔
      ∃ s, k = tablePrefix tableId ++ s := by
  have htext : text "r" = [114] := by decide +kernel
  rw [prefixEnd_tablePrefix]
  unfold tablePrefix
  rw [htext]
  exact between_iff (by decide) (text "t" ++ putBigEndian 4 tableId) k

/-! ## No two kinds of keys meet. -/

theorem tablePrefix_append_inj {id id' : Nat} (hid : id < 2 ^ 32) (hid' : id' < 2 ^ 32)
    {s s' : Bytes} (h : tablePrefix id ++ s = tablePrefix id' ++ s') : id = id' ∧ s = s' := by
  have hlen : (tablePrefix id).length = (tablePrefix id').length := by simp [tablePrefix]
  have hparts := List.append_inj h hlen
  have hbytes := List.append_inj_left' hparts.1 rfl
  have heq := List.append_inj_right hbytes rfl
  exact ⟨putBigEndian_inj (by omega) (by omega) heq, hparts.2⟩

theorem head?_tablePrefix (id : Nat) (s : Bytes) : (tablePrefix id ++ s).head? = some 116 := by
  have htext : text "t" = [116] := by decide +kernel
  unfold tablePrefix
  rw [htext]
  exact rfl

theorem catalogKey_eq (name : Bytes) : catalogKey name = [95, 95, 99, 97, 116, 47] ++ name := by
  have htext : text "__cat/" = [95, 95, 99, 97, 116, 47] := by decide +kernel
  rw [catalogKey, htext]

theorem tablePrefix_ne_catalogKey (id : Nat) (s name : Bytes) :
    tablePrefix id ++ s ≠ catalogKey name := by
  intro h
  have hhead := congrArg List.head? h
  rw [head?_tablePrefix, catalogKey_eq] at hhead
  cases Option.some.inj hhead

theorem tablePrefix_ne_nextTableIdKey (id : Nat) (s : Bytes) :
    tablePrefix id ++ s ≠ nextTableIdKey := by
  intro h
  have hhead := congrArg List.head? h
  have hnext : nextTableIdKey.head? = some 95 := by decide +kernel
  rw [head?_tablePrefix, hnext] at hhead
  cases Option.some.inj hhead

/-- **Row keys embed the primary-key order and isolate tables**: the scanned interval of a table has
all its row keys, no row key of another table and no catalog key.  A row is read back exactly if its
lengths fit 32 bits. -/
theorem rowKeys_isolate_tables (id id' : UInt32) {p q : Value} (h : p.type = q.type) :
    (rowKey id.toNat p < rowKey id.toNat q ↔ p < q) ∧
    (rowKey id.toNat p = rowKey id'.toNat q → id = id' ∧ p = q) ∧
    (let scanned key := tablePrefix id.toNat ≤ key ∧ key < prefixEnd (tablePrefix id.toNat);
      (∀ pk, scanned (rowKey id.toNat pk)) ∧ (∀ pk, id' ≠ id → ¬ scanned (rowKey id'.toNat pk)) ∧
      (∀ name, ¬ scanned (catalogKey name)) ∧ ¬ scanned nextTableIdKey) ∧
    ∀ (values : List Value) (schema : TableSchema), values.length = schema.columns.length →
      (decodeRow (encodeRow values) schema = some values ↔
        values.length < 2 ^ 32 ∧ ∀ v ∈ values, v.Fits) := by
  refine ⟨rowKey_lt_iff _ h, fun heq => ?_, ⟨fun pk => ?_, fun pk hne hin => ?_, fun name hin => ?_,
    fun hin => ?_⟩, fun values schema => decodeRow_encodeRow_iff⟩
  · obtain ⟨hid, hpk⟩ := tablePrefix_append_inj id.toNat_lt id'.toNat_lt heq
    exact ⟨UInt32.toNat_inj.mp hid, encodePkValue_inj h hpk⟩
  · exact (mem_tableRange_iff _ _).mpr ⟨_, rfl⟩
  · obtain ⟨s, hs⟩ := (mem_tableRange_iff _ _).mp hin
    exact hne (UInt32.toNat_inj.mp (tablePrefix_append_inj id'.toNat_lt id.toNat_lt hs).1)
  · obtain ⟨s, hs⟩ := (mem_tableRange_iff _ _).mp hin
    exact tablePrefix_ne_catalogKey _ s name hs.symm
  · obtain ⟨s, hs⟩ := (mem_tableRange_iff _ _).mp hin
    exact tablePrefix_ne_nextTableIdKey _ s hs.symm

theorem rowKeys_isolate_tables_negative :
    rowKey 7 (.int (-1)) < rowKey 7 (.int 1) ∧ (Value.int (-1)).type = (Value.int 1).type := by
  have hkeys := rowKeys_isolate_tables 7 8 (p := .int (-1)) (q := .int 1) rfl
  exact ⟨hkeys.1.mpr (Value.int_lt_int.mpr (by decide)), rfl⟩

/-- **A row that is not read back**: the length of its one value has 33 bits. -/
theorem decodeRow_long_text : ∃ s : Bytes, s.length = 2 ^ 32 ∧
    decodeRow (encodeRow [.text s]) ⟨1, [116], [⟨[118], .text, true⟩]⟩ ≠ some [.text s] := by
  obtain ⟨s, hs⟩ : ∃ s : Bytes, s.length = 2 ^ 32 := ⟨List.replicate (2 ^ 32) 0, length_replicate⟩
  refine ⟨s, hs, fun hrow => ?_⟩
  have hfits : s.length < 2 ^ 32 := ((decodeRow_encodeRow_iff rfl).mp hrow).2 _ mem_cons_self
  omega

end Flotilla.Sql
