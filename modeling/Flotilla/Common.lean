/-
  Common — byte strings, their order, and statuses (`common/status.h`).
-/
import Mathlib

namespace Flotilla

-- the lemmas about lists, options and updates that are used throughout
export List (all_cons all_eq_true append_assoc append_cancel_left append_nil append_of_mem
  cons_append cons_lt_cons_iff cons_ne_nil drop_append_of_le_length drop_drop drop_left drop_left'
  drop_nil drop_take dropWhile_cons_of_neg filter_append filter_congr filter_cons_of_pos
  filter_eq_self filter_filter filterMap_append filterMap_cons_none flatMap_append flatMap_cons
  flatMap_singleton flatten_cons flatten_singleton foldl_append foldl_cons foldl_nil
  getElem?_append_left getElem?_drop getElem?_eq_getElem getElem?_eq_some_iff getElem?_take_of_lt
  getElem_mem length_append length_cons length_drop length_map length_mapIdx length_nil
  length_replicate length_singleton length_take length_take_le map_append map_cons map_eq_cons_iff
  map_map mem_append mem_append_left mem_append_right mem_cons mem_cons_of_mem mem_cons_self
  mem_filter mem_filterMap mem_flatMap mem_flatten mem_iff_getElem? mem_map mem_map_of_mem
  mem_of_getElem? mem_of_mem_drop mem_of_mem_filter mem_of_mem_take mem_singleton
  mem_singleton_self nil_append nil_lt_cons nil_prefix nodup_append not_lt_nil not_mem_nil
  pairwise_append pairwise_cons pairwise_map pairwise_pair pairwise_singleton prefix_append
  prefix_refl prefix_rfl rel_of_pairwise_cons set_set singleton_append take_add take_add_one
  take_append take_append_drop take_append_of_le_length take_left take_left' take_length take_nil
  take_of_length_le take_prefix_take_left take_succ_cons take_take take_zero
  takeWhile_cons_of_neg takeWhile_cons_of_pos)

export Option (any_eq_true bind_eq_some_iff bind_some filter_eq_some_iff filter_some getD_some
  isSome_iff_exists map_eq_none_iff map_eq_some_iff map_some mem_def ne_none_iff_exists' none_or
  or_none toList_none toList_some)

export Function (update update_apply update_eq_self update_of_ne update_self)

/-- `std::string`: an arbitrary byte string. -/
abbrev Bytes := List UInt8

/-- Bytes compare as unsigned numbers, so byte strings compare as `memcmp` does. -/
instance instLinearOrderUInt8 : LinearOrder UInt8 where
  le_refl := UInt8.le_refl
  le_trans := fun _ _ _ => UInt8.le_trans
  le_antisymm := fun _ _ => UInt8.le_antisymm
  le_total := UInt8.le_total
  lt_iff_le_not_ge := fun a b => by
    rw [UInt8.lt_iff_le_and_ne]
    constructor
    · rintro ⟨hle, hne⟩
      exact ⟨hle, fun hge => hne (UInt8.le_antisymm hle hge)⟩
    · rintro ⟨hle, hnot⟩
      exact ⟨hle, fun heq => hnot (heq ▸ UInt8.le_refl _)⟩
  toDecidableLE := inferInstance
  toDecidableLT := inferInstance

theorem forall_bytes {P : UInt8 → Prop} (h : ∀ n : Fin 256, P (UInt8.ofNat n)) (c : UInt8) : P c := by
  have hc := h ⟨c.toNat, c.toNat_lt⟩
  rwa [UInt8.ofNat_toNat] at hc

/-- A string literal of the source. -/
def text (s : String) : Bytes := s.toUTF8.toList

/-- `std::to_string`. -/
def decimal (n : Nat) : Bytes := text (toString n)

/-- `std::isspace`, without a locale. -/
def isSpace (c : UInt8) : Bool := c = 32 || (9 ≤ c && c ≤ 13)

/-- `std::isdigit` -/
def isDigit (c : UInt8) : Bool := 48 ≤ c && c ≤ 57

/-- The number that decimal digits denote. -/
def digitsValue (digits : Bytes) : Nat := digits.foldl (fun n c => 10 * n + (c.toNat - 48)) 0

inductive Code where
  | ok
  | notFound
  | corruption
  | ioError
  | invalidArgument
  | notLeader
  | timeout
  | aborted
  | conflict
  deriving DecidableEq, Repr

structure Status where
  code : Code := .ok
  message : Bytes := []

namespace Status

def isOk (s : Status) : Bool := s.code = .ok

def isConflict (s : Status) : Bool := s.code = .conflict

def isNotFound (s : Status) : Bool := s.code = .notFound

end Status

end Flotilla
