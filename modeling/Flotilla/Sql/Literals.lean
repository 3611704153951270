/-
  Sql.Literals — integers from the text of a statement to its rows.

  The value of an integer literal is set by the lexer.  The parser, the rows, the
  row keys and the comparisons keep that value: only `strtoll` can change it.
-/
import Flotilla.Sql.Catalog
import Flotilla.Sql.Parser

namespace Flotilla.Sql

open Lexeme (kw sym)

/-! ## The literals of a statement. -/

/-- In the order in which they are written. -/
def Statement.literals : Statement → List Value
  | .createTable _ => []
  | .dropTable _ => []
  | .insert stmt => stmt.rows.flatten
  | .select stmt => stmt.where_.map Predicate.literal
  | .update stmt => stmt.sets.map Prod.snd ++ stmt.where_.map Predicate.literal
  | .delete stmt => stmt.where_.map Predicate.literal

def Value.int? : Value → Option Int64
  | .int i => some i
  | .text _ => none

def Statement.ints (stmt : Statement) : List Int64 := stmt.literals.filterMap Value.int?

def Lexeme.value? : Lexeme → Option Value
  | .literal v => some v
  | _ => none

theorem filterMap_separated {α : Type} {sep : Lexeme} (hsep : sep.value? = none)
    (f : α → List Lexeme) (as : List α) :
    (separated sep f as).filterMap Lexeme.value? =
      as.flatMap fun a => (f a).filterMap Lexeme.value? := by
  induction as with
  | nil => rfl
  | cons a as ih =>
    cases as with
    | nil => simp [separated]
    | cons b as =>
      show (f a ++ sep :: separated sep f (b :: as)).filterMap _ = _
      rw [filterMap_append, filterMap_cons_none hsep, ih]
      rfl

theorem values_names (columns : List Bytes) : (names columns).filterMap Lexeme.value? = [] := by
  unfold names
  rw [filterMap_separated rfl]
  simp [Lexeme.value?]

theorem values_column (col : ColumnDef) : col.lexemes.filterMap Lexeme.value? = [] := by
  cases col with
  | mk name type isPk => cases type <;> cases isPk <;> rfl

theorem values_predicate (pred : Predicate) :
    pred.lexemes.filterMap Lexeme.value? = [pred.literal] := by
  cases pred with
  | mk column op literal => cases op <;> rfl

theorem values_where (preds : List Predicate) :
    (whereLexemes preds).filterMap Lexeme.value? = preds.map Predicate.literal := by
  cases preds with
  | nil => rfl
  | cons pred preds =>
    show (kw "WHERE" :: separated _ _ _).filterMap Lexeme.value? = _
    rw [filterMap_cons_none rfl, filterMap_separated rfl, List.map_eq_flatMap]
    simp only [values_predicate]

theorem values_row (row : List Value) : (rowLexemes row).filterMap Lexeme.value? = row := by
  unfold rowLexemes
  rw [cons_append, filterMap_cons_none rfl, filterMap_append, filterMap_separated rfl]
  simp [Lexeme.value?, sym]

theorem values_lexemes (stmt : Statement) :
    stmt.lexemes.filterMap Lexeme.value? = stmt.literals := by
  have hkw : ∀ s, (kw s).value? = none := fun _ => rfl
  have hsym : ∀ s, (sym s).value? = none := fun _ => rfl
  have hname : ∀ s, (Lexeme.identifier s).value? = none := fun _ => rfl
  cases stmt with
  | createTable stmt =>
    simp [Statement.lexemes, Statement.literals, filterMap_separated, values_column, hkw, hsym, hname]
  | dropTable stmt => rfl
  | insert stmt =>
    have hcolumns : (if stmt.columns = [] then [] else sym "(" :: names stmt.columns ++
        [sym ")"]).filterMap Lexeme.value? = [] := by
      split <;> simp [values_names, hsym]
    unfold Statement.lexemes
    rw [filterMap_append, filterMap_append, hcolumns]
    simp [Statement.literals, filterMap_separated, values_row, hkw, hsym, hname, List.flatMap_id']
  | select stmt =>
    have hcolumns : (if stmt.columns = [] then [sym "*"] else names stmt.columns).filterMap
        Lexeme.value? = [] := by
      split <;> simp [values_names, hsym]
    simp [Statement.lexemes, Statement.literals, values_where, hkw, hname, hcolumns]
  | update stmt =>
    have hset : ∀ set, (setLexemes set).filterMap Lexeme.value? = [set.2] := fun _ => rfl
    simp [Statement.lexemes, Statement.literals, filterMap_separated, values_where, hset, hkw, hsym,
      hname, List.map_eq_flatMap]
  | delete stmt => simp [Statement.lexemes, Statement.literals, values_where, hkw, hname]

/-! ## The integers of the text. -/

theorem ints_tokens (ts : List Token) :
    ((ts.map Token.lexeme).filterMap Lexeme.value?).filterMap Value.int? =
      (ts.filter (·.type = .int)).map Token.intValue := by
  induction ts with
  | nil => rfl
  | cons t ts ih =>
    cases t with
    | mk type text intValue pos =>
      rw [map_cons]
      cases type with
      | int =>
        show intValue :: List.filterMap Value.int? _ = intValue :: List.map _ _
        rw [ih]
      | _ => exact ih

theorem ints_parse {input : Bytes} {stmt : Statement} (h : parse input = .ok stmt) :
    ∃ ts, lex input = .ok ts ∧ (∀ t ∈ ts, t.type = .int → t.intValue = strtoll t.text) ∧
      stmt.ints = (ts.filter (·.type = .int)).map Token.intValue := by
  unfold parse at h
  cases hlex : lex input with
  | error s =>
    rw [hlex] at h
    cases h
  | ok ts =>
    rw [hlex] at h
    obtain ⟨init, rfl, hinit⟩ := lexFrom_tokens hlex
    have hend : .atEnd ∈ (init ++ [({ pos := input.length } : Token)]).map Token.lexeme := by
      simp [Token.lexeme]
    refine ⟨_, rfl, fun t ht htype => ?_, ?_⟩
    · cases mem_append.mp ht with
      | inl ht => exact (hinit t ht).value htype
      | inr ht =>
        rw [mem_singleton.mp ht] at htype
        cases htype
    · cases Parser.parseTokens_spec hend with
      | inl herror =>
        obtain ⟨s, hs⟩ := herror
        dsimp only at h
        rw [hs] at h
        cases h
      | inr hok =>
        obtain ⟨stmt', rest, hresult, -, semi, l, hsemi, hts⟩ := hok
        dsimp only at h
        rw [hresult] at h
        obtain rfl : stmt' = stmt := Except.ok.inj h
        rw [← ints_tokens, hts]
        have hnone : .atEnd ∉ init.map Token.lexeme := by
          intro hmem
          obtain ⟨t, ht, hlexeme⟩ := mem_map.mp hmem
          refine (hinit t ht).notEnd ?_
          cases t with
          | mk type text intValue pos => cases type <;> first | rfl | cases hlexeme
        rw [map_append] at hts
        obtain ⟨-, -, rfl⟩ := (List.append_cons_inj_of_notMem hnone not_mem_nil).mp hts
        have hsemi' : semi.filterMap Lexeme.value? = [] := by
          cases hsemi with
          | inl h | inr h => exact h ▸ rfl
        simp [Statement.ints, values_lexemes, hsemi', Lexeme.value?]

/-! ## From the text to the rows. -/

/-- **Integer literals keep their value exactly up to 64 bits.**  Behind the lexer no step changes
an integer: rows are read back as they were written, row keys hold the value, comparisons are those
of the integers and the output is the value in decimal. -/
theorem int_literals_kept_iff {input : Bytes} {stmt : Statement} (h : parse input = .ok stmt) :
    (∃ ts, lex input = .ok ts ∧
      let texts := (ts.filter (·.type = .int)).map Token.text
      (stmt.ints.map Int64.toInt = texts.map denotes ↔ ∀ s ∈ texts, InRange (denotes s))) ∧
    (∀ (values : List Value) (schema : TableSchema), values.length = schema.columns.length →
      values.length < 2 ^ 32 → (∀ v ∈ values, v.Fits) →
      decodeRow (encodeRow values) schema = some values) ∧
    (∀ (tableId : Nat) (i : Int64), ∃ pk, rowKey tableId (.int i) = tablePrefix tableId ++ pk ∧
      (readBigEndian pk : Int) = i.toInt + 2 ^ 63) ∧
    (∀ i j : Int64, ((Value.int i).compare (.int j) < 0 ↔ i.toInt < j.toInt) ∧
      ((Value.int i).compare (.int j) = 0 ↔ i = j)) ∧
    ∀ i : Int64, (Value.int i).toString = text (toString i.toInt) := by
  refine ⟨?_, fun values schema => decodeRow_encodeRow, fun tableId i => ⟨_, rfl, ?_⟩,
    fun i j => ⟨?_, ?_⟩, fun _ => rfl⟩
  · obtain ⟨ts, hlex, hvalue, hints⟩ := ints_parse h
    refine ⟨ts, hlex, ?_⟩
    dsimp only
    rw [hints, map_map, map_map, List.map_inj_left]
    simp only [List.forall_mem_map]
    refine forall₂_congr fun t ht => ?_
    obtain ⟨ht, htype⟩ := mem_filter.mp ht
    show t.intValue.toInt = denotes t.text ↔ _
    rw [hvalue t ht (of_decide_eq_true htype)]
    exact strtoll_eq_iff t.text
  · have hbits : bits i ^^^ 2 ^ 63 < 256 ^ 8 := Nat.xor_lt_two_pow (n := 64) (bits_lt i) (by decide)
    show (readBigEndian (putBigEndian 8 (bits i ^^^ 2 ^ 63)) : Int) = _
    rw [readBigEndian_put hbits]
    exact bits_flip i
  · exact (Value.compare_neg (a := .int i) (b := .int j) rfl).trans Value.int_lt_int
  · exact (Value.compare_zero (a := .int i) (b := .int j) rfl).trans
      ⟨Value.int.inj, congrArg Value.int⟩

/-- 2^63 as the text of a literal. -/
def tooLarge : Bytes := text "9223372036854775808"

/-- **An accepted literal that changes its value**: 2^63 becomes 2^63 - 1. -/
theorem int_literal_saturates :
    (parse (text "DELETE FROM t WHERE a = " ++ tooLarge)).toOption.map Statement.ints =
        some [Int64.maxValue] ∧
      denotes tooLarge = 2 ^ 63 ∧ Int64.maxValue.toInt = 2 ^ 63 - 1 := by
  decide +kernel

/-- -2^63 is kept. -/
theorem int_literals_kept_iff_minimum :
    ∃ stmt, parse (text "DELETE FROM t WHERE a = -9223372036854775808") = .ok stmt ∧
      stmt.ints.map Int64.toInt = [-2 ^ 63] := by
  have htexts : (lex (text "DELETE FROM t WHERE a = -9223372036854775808")).toOption.map (fun ts =>
      ((ts.filter (·.type = .int)).map Token.text).map denotes) = some [-2 ^ 63] := by decide +kernel
  have hsome : (parse (text "DELETE FROM t WHERE a = -9223372036854775808")).toOption.isSome := by
    decide +kernel
  cases hparse : parse (text "DELETE FROM t WHERE a = -9223372036854775808") with
  | error e =>
    rw [hparse] at hsome
    cases hsome
  | ok stmt =>
    obtain ⟨⟨ts, hlex, hiff⟩, -⟩ := int_literals_kept_iff hparse
    rw [hlex] at htexts
    have htexts := Option.some.inj htexts
    refine ⟨stmt, rfl, (hiff.mpr fun s hs => ?_).trans htexts⟩
    have hmem : denotes s ∈ [(-2 ^ 63 : Int)] := htexts ▸ mem_map_of_mem hs
    rw [mem_singleton.mp hmem]
    exact ⟨le_rfl, by decide⟩

end Flotilla.Sql
