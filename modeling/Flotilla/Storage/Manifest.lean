/-
  Storage.Manifest — the text of the manifest, `storage/manifest.cc`.

  One line for each number and each table: a tag and its fields, with blanks
  between them.  Keys are written in hexadecimal, and the empty key as `-`, so no
  field is empty and no field has a blank or a newline in it.  Fields are read by
  `>>` from a stream for each line; the flags of the stream are looked at once, and
  only for a table.
-/
import Flotilla.Storage.Db

namespace Flotilla.Storage.Manifest

/-! ## Streams. -/

/-- An `istringstream`: the text that is left, `eofbit` and `failbit`. -/
structure Stream where
  rest : Bytes
  eof : Bool := false
  fail : Bool := false

/-- `ls >> x`.  `get` returns the value, the text behind it and whether it failed; a stream that is
at its end, or has failed before, leaves `x` as it is. -/
def extract {α : Type} (get : Bytes → α × Bytes × Bool) (x : α) : StateM Stream α := fun s =>
  if s.eof || s.fail then (x, { s with fail := true })
  else
    let front := s.rest.dropWhile isSpace
    if front = [] then (x, ⟨[], true, true⟩)
    else ((get front).1, ⟨(get front).2.1, (get front).2.1 = [], (get front).2.2⟩)

def getWord (front : Bytes) : Bytes × Bytes × Bool :=
  (front.takeWhile (!isSpace ·), front.dropWhile (!isSpace ·), false)

def sign : Bytes → Bool × Bytes
  | 45 :: rest => (true, rest)
  | 43 :: rest => (false, rest)
  | rest => (false, rest)

/-- A sign and digits; `convert` says what the type makes of them, and if they overflow it. -/
def getNumber {α : Type} (convert : Bool → Nat → α × Bool) (front : Bytes) : α × Bytes × Bool :=
  let digits := (sign front).2.takeWhile isDigit
  let value := convert (sign front).1 (digitsValue digits)
  (value.1, (sign front).2.dropWhile isDigit, digits = [] || value.2)

/-- A negative number wraps around. -/
def toU64 (negative : Bool) (n : Nat) : UInt64 × Bool :=
  if 2 ^ 64 ≤ n then (.ofNat (2 ^ 64 - 1), true)
  else (if negative then -.ofNat n else .ofNat n, false)

def toInt32 (negative : Bool) (n : Nat) : Int32 × Bool :=
  let value : Int := if negative then -n else n
  if value < -2 ^ 31 then (Int32.minValue, true)
  else if 2 ^ 31 ≤ value then (Int32.maxValue, true) else (.ofInt value, false)

def word : Bytes → StateM Stream Bytes := extract getWord

def u64 : UInt64 → StateM Stream UInt64 := extract (getNumber toU64)

def int : Int32 → StateM Stream Int32 := extract (getNumber toInt32)

/-- The lines that `std::getline` returns; `line` is what it has of the next one. -/
def getLines (line : Bytes) : Bytes → List Bytes
  | [] => if line = [] then [] else [line]
  | c :: rest => if c = 10 then line :: getLines [] rest else getLines (line ++ [c]) rest

/-! ## Keys. -/

def hexDigit (n : UInt8) : UInt8 := (text "0123456789abcdef").getD n.toNat 0

def hexPair (c : UInt8) : Bytes := [hexDigit (c >>> 4), hexDigit (c &&& 0xf)]

def toHex (s : Bytes) : Bytes := if s.flatMap hexPair = [] then text "-" else s.flatMap hexPair

def hexValue (c : UInt8) : Option UInt8 :=
  if 48 ≤ c && c ≤ 57 then some (c - 48)
  else if 97 ≤ c && c ≤ 102 then some (c - 97 + 10) else none

def fromPairs : Bytes → Option Bytes
  | hi :: lo :: rest => do
      let hi ← hexValue hi
      let lo ← hexValue lo
      let out ← fromPairs rest
      return (hi <<< 4 ||| lo) :: out
  | _ => some []

def fromHex (hex : Bytes) : Option Bytes :=
  if hex = text "-" then some [] else if hex.length % 2 ≠ 0 then none else fromPairs hex

/-! ## The manifest. -/

/-- `TableMeta`, with the machine's numbers. -/
structure TableMeta where
  number : UInt64 := 0
  level : Int32 := 0
  smallest : Bytes := []
  largest : Bytes := []
  entries : UInt64 := 0
  fileBytes : UInt64 := 0

structure ManifestData where
  nextFile : UInt64 := 1
  lastSeq : UInt64 := 0
  files : List TableMeta := []

/-- The table of `Storage.Db` that is meant. -/
def TableMeta.toDb (m : TableMeta) : Storage.TableMeta :=
  ⟨m.number.toNat, m.level.toInt.toNat, m.smallest, m.largest, m.entries.toNat, m.fileBytes.toNat⟩

def TableMeta.ofDb (m : Storage.TableMeta) : TableMeta :=
  ⟨.ofNat m.number, .ofNat m.level, m.smallest, m.largest, .ofNat m.entries, .ofNat m.fileBytes⟩

def ManifestData.toDb (md : ManifestData) : Storage.ManifestData :=
  ⟨md.nextFile.toNat, md.lastSeq.toNat, md.files.map TableMeta.toDb⟩

def ManifestData.ofDb (md : Storage.ManifestData) : ManifestData :=
  ⟨.ofNat md.nextFile, .ofNat md.lastSeq, md.files.map TableMeta.ofDb⟩

/-- `<<` of an unsigned number. -/
def putNumber (n : Nat) : Bytes :=
  if n < 10 then [.ofNat (48 + n)] else putNumber (n / 10) ++ [.ofNat (48 + n % 10)]

/-- `<<` of an `int`. -/
def putInt (i : Int32) : Bytes :=
  if i.toInt < 0 then 45 :: putNumber i.toInt.natAbs else putNumber i.toInt.natAbs

/-- Words with a blank before each. -/
def words (ws : List Bytes) : Bytes := ws.flatMap (32 :: ·)

/-- `out << w << " " << ... << "\n"`. -/
def putLine (w : Bytes) (ws : List Bytes) : Bytes := w ++ words ws ++ [10]

def TableMeta.fields (m : TableMeta) : List Bytes :=
  [putNumber m.number.toNat, putInt m.level, toHex m.smallest, toHex m.largest,
    putNumber m.entries.toNat, putNumber m.fileBytes.toNat]

def putFile (m : TableMeta) : Bytes := putLine (text "file") m.fields

/-- What `SaveManifest` writes. -/
def saveManifest (data : ManifestData) : Bytes :=
  putLine (text "next_file") [putNumber data.nextFile.toNat] ++
    (putLine (text "last_seq") [putNumber data.lastSeq.toNat] ++ data.files.flatMap putFile)

/-- The fields of a table, with the keys in hexadecimal. -/
def readFile : StateM Stream TableMeta := do
  let number ← u64 0
  let level ← int 0
  let smallest ← word []
  let largest ← word []
  let entries ← u64 0
  let fileBytes ← u64 0
  return ⟨number, level, smallest, largest, entries, fileBytes⟩

def loadLine (data : ManifestData) (line : Bytes) : Except Status ManifestData :=
  if line = [] then .ok data
  else
    let tag := (word []).run { rest := line }
    if tag.1 = text "next_file" then
      .ok { data with nextFile := ((u64 data.nextFile).run tag.2).1 }
    else if tag.1 = text "last_seq" then
      .ok { data with lastSeq := ((u64 data.lastSeq).run tag.2).1 }
    else if tag.1 = text "file" then
      let m := readFile.run tag.2
      -- the only look at the flags
      match m.2.fail, fromHex m.1.smallest, fromHex m.1.largest with
      | false, some smallest, some largest =>
          .ok { data with
            files := data.files ++ [{ m.1 with smallest := smallest, largest := largest }] }
      | _, _, _ => .error ⟨.corruption, text "bad manifest line: " ++ line⟩
    else .error ⟨.corruption, text "unknown manifest tag: " ++ tag.1⟩

/-- `LoadManifest` on what the file contains. -/
def loadManifest (content : Bytes) : Except Status ManifestData :=
  (getLines [] content).foldlM loadLine {}

/-! ## Words are read. -/

/-- The stream in front of words. -/
def before (ws : List Bytes) : Stream := ⟨words ws, ws = [], false⟩

/-- The extraction takes the words and returns `a`. -/
def Reads {α : Type} (p : StateM Stream α) (ws : List Bytes) (a : α) : Prop :=
  ∀ rest, p.run (before (ws ++ rest)) = (a, before rest)

abbrev Solid (w : Bytes) : Prop := ∀ c ∈ w, isSpace c = false

/-- A word that `get` takes as a whole. -/
structure Gets {α : Type} (get : Bytes → α × Bytes × Bool) (w : Bytes) (a : α) : Prop where
  solid : Solid w
  nonempty : w ≠ []
  get_eq : ∀ ws : List Bytes, get (w ++ words ws) = (a, words ws, false)

section

variable {α β : Type} {p : StateM Stream α} {f : α → StateM Stream β} {v w : List Bytes} {a : α}
  {b : β}

theorem Reads.bind (hp : Reads p v a) (hf : Reads (f a) w b) : Reads (p >>= f) (v ++ w) b := by
  intro rest
  rw [StateT.run_bind, append_assoc, hp]
  exact hf rest

theorem reads_pure : Reads (pure a) [] a := fun _ => rfl

theorem takeWhile_word {q : UInt8 → Bool} {s : Bytes} (hs : ∀ c ∈ s, q c = true)
    (hblank : q 32 = false) (ws : List Bytes) :
    (s ++ words ws).takeWhile q = s ∧
      (s ++ words ws).dropWhile q = words ws := by
  rw [List.takeWhile_append_of_pos hs, List.dropWhile_append_of_pos hs]
  cases ws <;> simp [words, hblank]

theorem Gets.front {get : Bytes → α × Bytes × Bool} {s : Bytes} (h : Gets get s a) (x : α)
    (rest : List Bytes) (blanks : Bytes) (hblanks : ∀ c ∈ blanks, isSpace c = true) :
    (extract get x).run ⟨blanks ++ (s ++ words rest), false, false⟩ =
      (a, before rest) := by
  have hfront : (blanks ++ (s ++ words rest)).dropWhile isSpace =
      s ++ words rest := by
    rw [List.dropWhile_append_of_pos hblanks]
    cases s with
    | nil => exact absurd rfl h.nonempty
    | cons c s =>
      rw [cons_append, dropWhile_cons_of_neg (by rw [h.solid c mem_cons_self]; simp)]
  have hne : s ++ words rest ≠ [] := by
    intro hnil
    exact h.nonempty (List.append_eq_nil_iff.mp hnil).1
  show extract get x _ = _
  unfold extract
  rw [if_neg (by simp)]
  dsimp only
  rw [hfront, if_neg hne, h.get_eq]
  unfold before
  cases rest <;> rfl

theorem Gets.reads {get : Bytes → α × Bytes × Bool} {s : Bytes} (h : Gets get s a) (x : α) :
    Reads (extract get x) [s] a :=
  fun rest => h.front x rest [32] (by decide +kernel)

end

theorem gets_word {s : Bytes} (hs : Solid s) (hne : s ≠ []) :
    Gets getWord s s := by
  refine ⟨hs, hne, fun ws => ?_⟩
  have hsolid : ∀ c ∈ s, (!isSpace c) = true := fun c hc => by rw [hs c hc]; rfl
  obtain ⟨htake, hdrop⟩ := takeWhile_word hsolid (by decide) ws
  unfold getWord
  rw [htake, hdrop]

/-! ## Numbers. -/

theorem solid_of_digit : ∀ c, isDigit c = true → isSpace c = false ∧ c ≠ 45 ∧ c ≠ 43 :=
  forall_bytes (by decide +kernel)

theorem digit_byte : ∀ d < 10, isDigit (.ofNat (48 + d)) = true ∧
    (UInt8.ofNat (48 + d)).toNat - 48 = d := by decide +kernel

theorem putNumber_spec (n : Nat) : putNumber n ≠ [] ∧ (∀ c ∈ putNumber n, isDigit c = true) ∧
    digitsValue (putNumber n) = n := by
  induction n using Nat.strong_induction_on with
  | _ n ih =>
    have hlast := digit_byte (n % 10) (Nat.mod_lt n (by omega))
    unfold putNumber
    split
    · -- a single digit
      rename_i hlt
      rw [Nat.mod_eq_of_lt hlt] at hlast
      refine ⟨cons_ne_nil _ _, fun c hc => ?_, ?_⟩
      · rw [mem_singleton.mp hc]
        exact hlast.1
      · show 10 * 0 + _ = n
        omega
    · -- the last digit stands behind the text of `n / 10`
      obtain ⟨_, hdigits, hvalue⟩ := ih (n / 10) (by omega)
      refine ⟨by simp, fun c hc => ?_, ?_⟩
      · cases mem_append.mp hc with
        | inl hfront => exact hdigits c hfront
        | inr hend =>
          rw [mem_singleton.mp hend]
          exact hlast.1
      · unfold digitsValue at hvalue ⊢
        rw [foldl_append, hvalue]
        show 10 * (n / 10) + _ = n
        omega

theorem sign_putNumber (n : Nat) (rest : Bytes) :
    sign (putNumber n ++ rest) = (false, putNumber n ++ rest) := by
  obtain ⟨hne, hdigits, _⟩ := putNumber_spec n
  cases hput : putNumber n with
  | nil => exact absurd hput hne
  | cons c digits =>
    obtain ⟨_, hminus, hplus⟩ := solid_of_digit c (hdigits c (hput ▸ mem_cons_self))
    rw [cons_append, sign]
    · exact fun _ h => hminus (List.cons.inj h).1
    · exact fun _ h => hplus (List.cons.inj h).1

theorem gets_number {α : Type} {convert : Bool → Nat → α × Bool} {w : Bytes} {a : α} (n : Nat)
    (neg : Bool) (hw : w = if neg then 45 :: putNumber n else putNumber n)
    (ha : convert neg n = (a, false)) : Gets (getNumber convert) w a := by
  obtain ⟨hne, hdigits, hvalue⟩ := putNumber_spec n
  have hsign : ∀ rest, sign (w ++ rest) = (neg, putNumber n ++ rest) := by
    intro rest
    rw [hw]
    cases neg with
    | true => rfl
    | false => exact sign_putNumber n rest
  have hsolid : Solid (putNumber n) := fun c hc =>
    (solid_of_digit c (hdigits c hc)).1
  refine ⟨?_, ?_, fun ws => ?_⟩
  · rw [hw]
    cases neg with
    | true => exact List.forall_mem_cons.mpr ⟨by decide, hsolid⟩
    | false => exact hsolid
  · rw [hw]
    cases neg with
    | true => exact cons_ne_nil _ _
    | false => exact hne
  · obtain ⟨htake, hdrop⟩ := takeWhile_word hdigits (by decide) ws
    unfold getNumber
    rw [hsign]
    dsimp only
    rw [htake, hdrop, hvalue, ha, decide_eq_false hne]
    rfl

theorem gets_u64 (n : UInt64) : Gets (getNumber toU64) (putNumber n.toNat) n := by
  refine gets_number n.toNat false rfl ?_
  unfold toU64
  rw [if_neg (not_le.mpr n.toNat_lt), UInt64.ofNat_toNat]
  rfl

theorem gets_int (i : Int32) : Gets (getNumber toInt32) (putInt i) i := by
  have hmin := i.le_toInt
  have hmax := i.toInt_lt
  refine gets_number i.toInt.natAbs (i.toInt < 0) ?_ ?_
  · unfold putInt
    simp only [decide_eq_true_eq]
  · have hvalue : (if decide (i.toInt < 0) = true then -(i.toInt.natAbs : Int)
        else i.toInt.natAbs) = i.toInt := by
      split
      · rename_i h
        have := of_decide_eq_true h
        omega
      · rename_i h
        have := of_decide_eq_false (Bool.eq_false_iff.mpr h)
        omega
    unfold toInt32
    rw [hvalue]
    dsimp only
    rw [if_neg (by omega), if_neg (by omega), Int32.ofInt_toInt]

/-! ## Keys. -/

theorem hexDigit_spec : ∀ c : UInt8, (isSpace (hexDigit (c >>> 4)) = false ∧
      isSpace (hexDigit (c &&& 0xf)) = false) ∧
    hexValue (hexDigit (c >>> 4)) = some (c >>> 4) ∧
    hexValue (hexDigit (c &&& 0xf)) = some (c &&& 0xf) ∧ (c >>> 4) <<< 4 ||| (c &&& 0xf) = c :=
  forall_bytes (by decide +kernel)

theorem fromPairs_hexPair (s : Bytes) : fromPairs (s.flatMap hexPair) = some s := by
  induction s with
  | nil => rfl
  | cons c s ih =>
    obtain ⟨_, hhi, hlo, hc⟩ := hexDigit_spec c
    rw [flatMap_cons]
    show (hexValue _ >>= fun hi => hexValue _ >>= fun lo =>
      fromPairs (s.flatMap hexPair) >>= fun out => pure ((hi <<< 4 ||| lo) :: out)) = _
    rw [hhi, hlo, ih]
    show some (_ :: s) = _
    rw [hc]

theorem gets_toHex (s : Bytes) : Gets getWord (toHex s) (toHex s) ∧ fromHex (toHex s) = some s := by
  have hminus : text "-" = [45] := by decide +kernel
  unfold toHex
  cases s with
  | nil => exact ⟨gets_word (by rw [hminus]; decide +kernel) (by rw [hminus]; simp), if_pos rfl⟩
  | cons c s =>
    -- two digits for each byte, so this is not the text of the empty key
    have hlength : ((c :: s).flatMap hexPair).length = (c :: s).length * 2 := by
      simp [List.length_flatMap, hexPair, Nat.add_mul]
    have hpairs := fromPairs_hexPair (c :: s)
    have hsolid : Solid ((c :: s).flatMap hexPair) := by
      intro b hb
      obtain ⟨d, _, hd⟩ := mem_flatMap.mp hb
      obtain ⟨⟨hhi, hlo⟩, _⟩ := hexDigit_spec d
      rcases mem_cons.mp hd with rfl | hd
      · exact hhi
      · rw [mem_singleton.mp hd]
        exact hlo
    generalize (c :: s).flatMap hexPair = out at *
    have hne : out ≠ [] := by
      rintro rfl
      cases hlength
    rw [length_cons] at hlength
    rw [if_neg hne]
    refine ⟨gets_word hsolid hne, ?_⟩
    unfold fromHex
    rw [if_neg (fun h => by rw [h, hminus, length_singleton] at hlength; omega),
      if_neg (by omega), hpairs]

/-! ## Lines. -/

theorem getLines_line {l : Bytes} (hl : ∀ c ∈ l, c ≠ 10) (line rest : Bytes) :
    getLines line (l ++ 10 :: rest) = (line ++ l) :: getLines [] rest := by
  induction l generalizing line with
  | nil =>
    rw [append_nil]
    exact if_pos rfl
  | cons c l ih =>
    rw [cons_append, getLines, if_neg (hl c mem_cons_self),
      ih (fun d hd => hl d (mem_cons_of_mem c hd)), append_assoc]
    rfl

theorem getLines_putLine {w : Bytes} {ws : List Bytes} (hws : ∀ v ∈ w :: ws, Solid v)
    (rest : Bytes) :
    getLines [] (putLine w ws ++ rest) = (w ++ words ws) :: getLines [] rest := by
  have hsolid : ∀ c, isSpace c = false → c ≠ 10 := by
    rintro c hc rfl
    cases hc
  unfold putLine
  rw [append_assoc]
  refine getLines_line (fun c hc => ?_) [] rest
  cases mem_append.mp hc with
  | inl hw => exact hsolid c (hws w mem_cons_self c hw)
  | inr hc =>
    obtain ⟨v, hv, hc⟩ := mem_flatMap.mp hc
    rcases mem_cons.mp hc with rfl | hc
    · decide
    · exact hsolid c (hws v (mem_cons_of_mem w hv) c hc)

theorem tag_run {w : Bytes} (hw : Gets getWord w w) (ws : List Bytes) :
    (word []).run { rest := w ++ words ws } = (w, before ws) :=
  hw.front [] ws [] (by simp)

theorem gets_tags : Gets getWord (text "next_file") (text "next_file") ∧
    Gets getWord (text "last_seq") (text "last_seq") ∧ Gets getWord (text "file") (text "file") :=
  ⟨gets_word (by decide +kernel) (by decide +kernel),
    gets_word (by decide +kernel) (by decide +kernel),
    gets_word (by decide +kernel) (by decide +kernel)⟩

theorem readFile_reads (m : TableMeta) : Reads readFile m.fields
    { m with smallest := toHex m.smallest, largest := toHex m.largest } := by
  refine ((gets_u64 m.number).reads 0).bind ?_
  refine ((gets_int m.level).reads 0).bind ?_
  refine ((gets_toHex m.smallest).1.reads []).bind ?_
  refine ((gets_toHex m.largest).1.reads []).bind ?_
  refine ((gets_u64 m.entries).reads 0).bind ?_
  exact ((gets_u64 m.fileBytes).reads 0).bind reads_pure

theorem u64_run (x n : UInt64) : (u64 x).run (before [putNumber n.toNat]) = (n, before []) :=
  (gets_u64 n).reads x []

theorem loadLine_next (data : ManifestData) (n : UInt64) :
    loadLine data (text "next_file" ++ words [putNumber n.toNat]) =
      .ok { data with nextFile := n } := by
  unfold loadLine
  rw [if_neg (by simp [gets_tags.1.nonempty]), tag_run gets_tags.1]
  dsimp only
  rw [if_pos rfl, u64_run]

theorem loadLine_last (data : ManifestData) (n : UInt64) :
    loadLine data (text "last_seq" ++ words [putNumber n.toNat]) =
      .ok { data with lastSeq := n } := by
  unfold loadLine
  rw [if_neg (by simp [gets_tags.2.1.nonempty]), tag_run gets_tags.2.1]
  dsimp only
  rw [if_neg (by decide +kernel), if_pos rfl, u64_run]

theorem loadLine_file (data : ManifestData) (m : TableMeta) :
    loadLine data (text "file" ++ words m.fields) =
      .ok { data with files := data.files ++ [m] } := by
  have hrun := readFile_reads m []
  unfold loadLine
  rw [if_neg (by simp [gets_tags.2.2.nonempty]), tag_run gets_tags.2.2]
  dsimp only
  rw [if_neg (by decide +kernel), if_neg (by decide +kernel), if_pos rfl]
  rw [append_nil] at hrun
  rw [hrun]
  dsimp only [before]
  rw [(gets_toHex m.smallest).2, (gets_toHex m.largest).2]

theorem solid_number {w : Bytes} (hw : Gets getWord w w) (n : UInt64) :
    ∀ v ∈ [w, putNumber n.toNat], Solid v :=
  List.forall_mem_cons.mpr ⟨hw.solid, List.forall_mem_singleton.mpr (gets_u64 n).solid⟩

theorem solid_fields (m : TableMeta) : ∀ v ∈ text "file" :: m.fields, Solid v := by
  unfold TableMeta.fields
  simp only [List.forall_mem_cons]
  exact ⟨gets_tags.2.2.solid, (gets_u64 _).solid, (gets_int _).solid, (gets_toHex _).1.solid,
    (gets_toHex _).1.solid, (gets_u64 _).solid, (gets_u64 _).solid, nofun⟩

theorem load_files (data : ManifestData) (files : List TableMeta) :
    (getLines [] (files.flatMap putFile)).foldlM loadLine data =
      .ok { data with files := data.files ++ files } := by
  induction files generalizing data with
  | nil =>
    show Except.ok data = _
    rw [append_nil]
  | cons m files ih =>
    rw [flatMap_cons, putFile, getLines_putLine (solid_fields m), List.foldlM_cons, loadLine_file]
    show List.foldlM _ _ _ = _
    rw [ih, append_assoc]
    rfl

/-- The manifest that `Storage.Db` keeps is what its saved text stands for, as long as the numbers
are numbers of the machine. -/
theorem ManifestData.toDb_ofDb {md : Storage.ManifestData} (hnext : md.nextFile < 2 ^ 64)
    (hlast : md.lastSeq < 2 ^ 64) (hfiles : ∀ m ∈ md.files, m.number < 2 ^ 64 ∧ m.level < 2 ^ 31 ∧
      m.entries < 2 ^ 64 ∧ m.fileBytes < 2 ^ 64) : (ofDb md).toDb = md := by
  have hmeta : ∀ m ∈ md.files, (TableMeta.ofDb m).toDb = m := by
    intro m hm
    obtain ⟨hnumber, hlevel, hentries, hbytes⟩ := hfiles m hm
    unfold TableMeta.ofDb TableMeta.toDb
    rw [UInt64.toNat_ofNat_of_lt' hnumber, Int32.toInt_ofNat_of_lt hlevel, Int.toNat_natCast,
      UInt64.toNat_ofNat_of_lt' hentries, UInt64.toNat_ofNat_of_lt' hbytes]
  have hall : md.files.map (TableMeta.toDb ∘ TableMeta.ofDb) = md.files :=
    (List.map_congr_left hmeta).trans (List.map_id _)
  unfold ofDb toDb
  rw [UInt64.toNat_ofNat_of_lt' hnext, UInt64.toNat_ofNat_of_lt' hlast, map_map, hall]

/-- **Manifest round trip**: what `SaveManifest` writes is loaded as the same data. -/
theorem manifest_round_trip (data : ManifestData) :
    loadManifest (saveManifest data) = .ok data := by
  unfold loadManifest saveManifest
  rw [getLines_putLine (solid_number gets_tags.1 _),
    getLines_putLine (solid_number gets_tags.2.1 _), List.foldlM_cons, loadLine_next]
  -- the other number, and then the tables
  show (loadLine _ _ >>= fun data => List.foldlM loadLine data _) = _
  rw [loadLine_last]
  exact load_files _ data.files

end Flotilla.Storage.Manifest
