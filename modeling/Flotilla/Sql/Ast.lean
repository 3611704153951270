/-
  Sql.Ast — values and statements (`sql/ast.h`).

  A value is an `int64_t` or a byte string; the statements are the six that the
  parser returns.
-/
import Flotilla.Common

namespace Flotilla.Sql

/-! ## Values. -/

inductive ValueType where
  | int
  | text
  deriving DecidableEq, Repr, Inhabited

namespace ValueType

/-- The enumerators `kInt = 1` and `kText = 2`. -/
def code : ValueType → Nat
  | .int => 1
  | .text => 2

/-- `static_cast<ValueType>` of a byte; every reader asks for `kInt` and takes the rest as text. -/
def ofCode (n : Nat) : ValueType := if n = 1 then .int else .text

@[simp] theorem ofCode_code (t : ValueType) : ofCode t.code = t := by cases t <;> rfl

theorem code_lt (t : ValueType) : t.code < 256 := by cases t <;> decide

end ValueType

/-- The three-way comparison `a < b ? -1 : a > b ? 1 : 0`. -/
def threeWay {α : Type} [LT α] [DecidableLT α] (a b : α) : Int :=
  if a < b then -1 else if b < a then 1 else 0

theorem threeWay_neg {α : Type} [LT α] [DecidableLT α] (a b : α) : threeWay a b < 0 ↔ a < b := by
  unfold threeWay
  by_cases hlt : a < b
  · simp [hlt]
  · rw [if_neg hlt]
    split <;> simp [hlt]

theorem threeWay_pos {α : Type} [LT α] [DecidableLT α] {a b : α} (hasymm : a < b → ¬ b < a) :
    0 < threeWay a b ↔ b < a := by
  unfold threeWay
  by_cases hlt : a < b
  · simp [hlt, hasymm hlt]
  · rw [if_neg hlt]
    by_cases hgt : b < a <;> simp [hgt]

/-- `Value`, of which either the integer or the string is in use. -/
inductive Value where
  | int (i : Int64)
  | text (s : Bytes)

namespace Value

def type : Value → ValueType
  | .int _ => .int
  | .text _ => .text

def i : Value → Int64
  | .int i => i
  | .text _ => 0

def s : Value → Bytes
  | .int _ => []
  | .text s => s

/-- `Compare`: the sign tells the order, for two values of one type. -/
def compare (a b : Value) : Int :=
  match a with
  | .int i => threeWay i b.i
  | .text s => threeWay s b.s

/-- `ToString`. -/
def toString : Value → Bytes
  | .int i => Flotilla.text (ToString.toString i.toInt)
  | .text s => s

/-- Integers by their signed value, strings bytewise; integers come before strings. -/
def rank : Value → Int ⊕ₗ Bytes
  | .int i => Sum.inlₗ i.toInt
  | .text s => Sum.inrₗ s

theorem rank_injective : Function.Injective rank := by
  intro a b h
  cases a with
  | int i =>
    cases b with
    | int j => exact congrArg Value.int (Int64.toInt_inj.mp (Sum.inl.inj h))
    | text t => cases h
  | text s =>
    cases b with
    | int j => cases h
    | text t => exact congrArg Value.text (Sum.inr.inj h)

instance : LinearOrder Value := LinearOrder.lift' rank rank_injective

theorem int_lt_int {i j : Int64} : Value.int i < Value.int j ↔ i.toInt < j.toInt :=
  Sum.Lex.inl_lt_inl_iff

theorem text_lt_text {s t : Bytes} : Value.text s < Value.text t ↔ s < t :=
  Sum.Lex.inr_lt_inr_iff

theorem compare_neg {a b : Value} (h : a.type = b.type) : a.compare b < 0 ↔ a < b := by
  cases a with
  | int i =>
    cases b with
    | int j =>
      rw [int_lt_int, ← Int64.lt_iff_toInt_lt]
      exact threeWay_neg i j
    | text t => cases h
  | text s =>
    cases b with
    | int j => cases h
    | text t =>
      rw [text_lt_text]
      exact threeWay_neg s t

theorem compare_pos {a b : Value} (h : a.type = b.type) : 0 < a.compare b ↔ b < a := by
  cases a with
  | int i =>
    cases b with
    | int j =>
      rw [int_lt_int, ← Int64.lt_iff_toInt_lt]
      refine threeWay_pos fun hlt => ?_
      rw [Int64.lt_iff_toInt_lt] at hlt ⊢
      omega
    | text t => cases h
  | text s =>
    cases b with
    | int j => cases h
    | text t =>
      rw [text_lt_text]
      exact threeWay_pos fun hlt => lt_asymm hlt

theorem compare_zero {a b : Value} (h : a.type = b.type) : a.compare b = 0 ↔ a = b := by
  have hneg := compare_neg h
  have hpos := compare_pos h
  constructor
  · intro hzero
    rw [hzero] at hneg hpos
    have hge : ¬ a < b := fun hlt => nomatch hneg.mpr hlt
    have hle : ¬ b < a := fun hlt => nomatch hpos.mpr hlt
    exact le_antisymm (not_lt.mp hle) (not_lt.mp hge)
  · intro heq
    have hge : ¬ a.compare b < 0 := fun hlt => absurd (hneg.mp hlt) (by simp [heq])
    have hle : ¬ 0 < a.compare b := fun hlt => absurd (hpos.mp hlt) (by simp [heq])
    omega

end Value

/-! ## Statements. -/

structure ColumnDef where
  name : Bytes
  type : ValueType
  isPk : Bool := false
  deriving DecidableEq, Inhabited

inductive CompareOp where
  | eq
  | ne
  | lt
  | le
  | gt
  | ge
  deriving DecidableEq, Repr

structure Predicate where
  column : Bytes
  op : CompareOp
  literal : Value

structure CreateTableStmt where
  table : Bytes
  columns : List ColumnDef

structure DropTableStmt where
  table : Bytes

structure InsertStmt where
  table : Bytes
  /-- Empty for schema order. -/
  columns : List Bytes
  rows : List (List Value)

structure SelectStmt where
  table : Bytes
  /-- Empty for `*`. -/
  columns : List Bytes
  /-- A conjunction. -/
  where_ : List Predicate

structure UpdateStmt where
  table : Bytes
  sets : List (Bytes × Value)
  where_ : List Predicate

structure DeleteStmt where
  table : Bytes
  where_ : List Predicate

inductive Statement where
  | createTable (stmt : CreateTableStmt)
  | dropTable (stmt : DropTableStmt)
  | insert (stmt : InsertStmt)
  | select (stmt : SelectStmt)
  | update (stmt : UpdateStmt)
  | delete (stmt : DeleteStmt)

/-- What `ParseCreate` checks: no column name twice, and one primary key. -/
structure Columns.Parsed (columns : List ColumnDef) : Prop where
  distinct : (columns.map ColumnDef.name).Nodup
  onePk : columns.countP ColumnDef.isPk = 1

end Flotilla.Sql
