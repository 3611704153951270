/-
  Lib.ByteKeys — byte strings as ordered keys.

  Keys are put together from parts: a fixed prefix, then numbers written most
  significant byte first.  Strings with a common front sort by what follows it,
  and bytes of one width sort as the numbers that they spell.
-/
import Flotilla.Common

namespace Flotilla

/-! ## Common fronts. -/

theorem append_lt_append_iff (p s t : Bytes) : p ++ s < p ++ t ↔ s < t := by
  induction p with
  | nil => exact Iff.rfl
  | cons a p ih =>
    rw [cons_append, cons_append, cons_lt_cons_iff, ih]
    simp

theorem between_iff {c d : UInt8} (hcd : c.toNat + 1 = d.toNat) (p k : Bytes) :
    p ++ [c] ≤ k ∧ k < p ++ [d] ↔ ∃ s, k = p ++ [c] ++ s := by
  induction p generalizing k with
  | nil =>
    cases k with
    | nil =>
      refine iff_of_false (fun h => ?_) (fun h => ?_)
      · exact absurd h.1 (not_le.mpr (nil_lt_cons c []))
      · obtain ⟨s, hs⟩ := h
        cases hs
    | cons a k =>
      show [c] ≤ a :: k ∧ a :: k < [d] ↔ ∃ s, a :: k = c :: s
      rw [← not_lt, cons_lt_cons_iff, cons_lt_cons_iff, UInt8.lt_iff_toNat_lt,
        UInt8.lt_iff_toNat_lt, ← UInt8.toNat_inj]
      have hnil : ∀ l : Bytes, ¬ l < [] := fun l => not_lt_nil l
      constructor
      · rintro ⟨hge, hlt⟩
        have hac : a = c := by
          apply UInt8.toNat_inj.mp
          have hless : a.toNat < d.toNat := hlt.resolve_right fun h => hnil k h.2
          omega
        exact ⟨k, by rw [hac]⟩
      · rintro ⟨s, hs⟩
        cases hs
        exact ⟨fun h => h.elim (Nat.lt_irrefl _) fun h => hnil _ h.2, .inl (by omega)⟩
  | cons b p ih =>
    cases k with
    | nil =>
      refine iff_of_false (fun h => ?_) (fun h => ?_)
      · exact absurd h.1 (not_le.mpr (nil_lt_cons b _))
      · obtain ⟨s, hs⟩ := h
        cases hs
    | cons a k =>
      have hrest := ih k
      rw [← not_lt] at hrest ⊢
      simp only [cons_append, cons_lt_cons_iff, List.cons.injEq]
      constructor
      · rintro ⟨hge, hlt⟩
        have hab : a = b := by
          refine le_antisymm ?_ (not_lt.mp fun h => hge (.inl h))
          exact hlt.elim le_of_lt fun h => le_of_eq h.1
        have hk := hrest.mp ⟨fun h => hge (.inr ⟨hab, h⟩),
          (hlt.resolve_left fun h => absurd hab (ne_of_lt h)).2⟩
        obtain ⟨s, hs⟩ := hk
        exact ⟨s, hab, by simpa using hs⟩
      · rintro ⟨s, hab, hs⟩
        have hk := hrest.mpr ⟨s, by simpa using hs⟩
        refine ⟨fun h => ?_, .inr ⟨hab, hk.2⟩⟩
        exact h.elim (fun h => absurd hab (ne_of_lt h)) fun h => hk.1 h.2

/-! ## Integers. -/

/-- The low `width` bytes of `n`, most significant first. -/
def putBigEndian : Nat → Nat → Bytes
  | 0, _ => []
  | width + 1, n => UInt8.ofNat (n / 256 ^ width) :: putBigEndian width n

@[simp] theorem length_putBigEndian (width n : Nat) : (putBigEndian width n).length = width := by
  induction width with
  | zero => rfl
  | succ width ih => rw [putBigEndian, length_cons, ih]

theorem putBigEndian_mod (width n : Nat) :
    putBigEndian width (n % 256 ^ width) = putBigEndian width n := by
  suffices h : ∀ k, width ≤ k → putBigEndian width (n % 256 ^ k) = putBigEndian width n from
    h width (Nat.le_refl width)
  induction width with
  | zero => intro k _; rfl
  | succ width ih =>
    intro k hk
    have hpow : 256 ^ k = 256 ^ width * 256 ^ (k - width) := by
      rw [← Nat.pow_add, Nat.add_sub_cancel' (by omega)]
    have hdvd : 256 ^ 1 ∣ 256 ^ (k - width) := Nat.pow_dvd_pow 256 (by omega)
    rw [putBigEndian, putBigEndian, ih k (by omega)]
    congr 1
    apply UInt8.toNat_inj.mp
    rw [UInt8.toNat_ofNat', UInt8.toNat_ofNat', hpow, Nat.mod_mul_right_div_self]
    exact Nat.mod_mod_of_dvd _ hdvd

theorem putBigEndian_lt_iff {width m n : Nat} (hm : m < 256 ^ width) (hn : n < 256 ^ width) :
    putBigEndian width m < putBigEndian width n ↔ m < n := by
  induction width generalizing m n with
  | zero =>
    rw [Nat.pow_zero] at hm hn
    have heq : m = n := by omega
    rw [heq]
    exact iff_of_false (lt_irrefl _) (Nat.lt_irrefl _)
  | succ width ih =>
    have hpos : 0 < 256 ^ width := Nat.pow_pos (by decide)
    have hrest := ih (Nat.mod_lt m hpos) (Nat.mod_lt n hpos)
    rw [putBigEndian_mod, putBigEndian_mod] at hrest
    rw [Nat.pow_succ, Nat.mul_comm] at hm hn
    have hmd : m / 256 ^ width < 256 := Nat.div_lt_of_lt_mul (by rwa [Nat.mul_comm])
    have hnd : n / 256 ^ width < 256 := Nat.div_lt_of_lt_mul (by rwa [Nat.mul_comm])
    rw [putBigEndian, putBigEndian, cons_lt_cons_iff, hrest, UInt8.lt_iff_toNat_lt,
      ← UInt8.toNat_inj, UInt8.toNat_ofNat', UInt8.toNat_ofNat', Nat.mod_eq_of_lt hmd,
      Nat.mod_eq_of_lt hnd]
    -- the first byte is the quotient, the others stand for the remainder
    have hme := Nat.div_add_mod m (256 ^ width)
    have hne := Nat.div_add_mod n (256 ^ width)
    constructor
    · intro h
      cases h with
      | inl hq =>
        have hmul := Nat.mul_le_mul_left (256 ^ width) (Nat.succ_le_of_lt hq)
        rw [Nat.mul_succ] at hmul
        omega
      | inr hr =>
        rw [hr.1] at hme
        omega
    · intro hlt
      cases Nat.lt_or_ge (m / 256 ^ width) (n / 256 ^ width) with
      | inl hq => exact .inl hq
      | inr hq =>
        have hle : m / 256 ^ width ≤ n / 256 ^ width := Nat.div_le_div_right (Nat.le_of_lt hlt)
        have heq : m / 256 ^ width = n / 256 ^ width := Nat.le_antisymm hle hq
        rw [heq] at hme
        exact .inr ⟨heq, by omega⟩

theorem putBigEndian_inj {width m n : Nat} (hm : m < 256 ^ width) (hn : n < 256 ^ width)
    (h : putBigEndian width m = putBigEndian width n) : m = n := by
  have hmn := putBigEndian_lt_iff hm hn
  have hnm := putBigEndian_lt_iff hn hm
  rw [h] at hmn hnm
  have hge : ¬ m < n := fun hlt => lt_irrefl _ (hmn.mpr hlt)
  have hle : ¬ n < m := fun hlt => lt_irrefl _ (hnm.mpr hlt)
  omega

/-- Shift in one byte after the other. -/
def readBigEndian (bytes : Bytes) : Nat := bytes.foldl (fun n b => n * 256 + b.toNat) 0

theorem foldl_putBigEndian (width n acc : Nat) :
    (putBigEndian width n).foldl (fun n b => n * 256 + b.toNat) acc =
      acc * 256 ^ width + n % 256 ^ width := by
  induction width generalizing acc with
  | zero => rw [putBigEndian, foldl_nil, Nat.pow_zero, Nat.mul_one, Nat.mod_one, Nat.add_zero]
  | succ width ih =>
    have hbyte : (UInt8.ofNat (n / 256 ^ width)).toNat = n / 256 ^ width % 256 := UInt8.toNat_ofNat'
    have hsplit := @Nat.mod_mul (256 ^ width) 256 n
    rw [putBigEndian, foldl_cons, ih, hbyte, Nat.pow_succ, hsplit]
    ring

theorem readBigEndian_concat (bytes : Bytes) (b : UInt8) :
    readBigEndian (bytes ++ [b]) = readBigEndian bytes * 256 + b.toNat := by
  unfold readBigEndian
  rw [foldl_append]
  rfl

theorem readBigEndian_lt (bytes : Bytes) : readBigEndian bytes < 256 ^ bytes.length := by
  induction bytes using List.reverseRecOn with
  | nil => exact Nat.one_pos
  | append_singleton bytes b ih =>
    have hb := b.toNat_lt
    rw [readBigEndian_concat, length_append, length_singleton, Nat.pow_succ]
    omega

theorem putBigEndian_succ (width n : Nat) :
    putBigEndian (width + 1) n = putBigEndian width (n / 256) ++ [UInt8.ofNat n] := by
  induction width with
  | zero => simp [putBigEndian]
  | succ width ih =>
    rw [putBigEndian, ih, putBigEndian, Nat.div_div_eq_div_mul, Nat.pow_succ, Nat.mul_comm]
    rfl

theorem putBigEndian_read (bytes : Bytes) :
    putBigEndian bytes.length (readBigEndian bytes) = bytes := by
  induction bytes using List.reverseRecOn with
  | nil => rfl
  | append_singleton bytes b ih =>
    have hb := b.toNat_lt
    have hlast : UInt8.ofNat (readBigEndian bytes * 256 + b.toNat) = b := by
      apply UInt8.toNat_inj.mp
      rw [UInt8.toNat_ofNat']
      omega
    have hfront : (readBigEndian bytes * 256 + b.toNat) / 256 = readBigEndian bytes := by omega
    rw [readBigEndian_concat, length_append, length_singleton, putBigEndian_succ, hlast, hfront, ih]

theorem readBigEndian_put {width n : Nat} (h : n < 256 ^ width) :
    readBigEndian (putBigEndian width n) = n := by
  unfold readBigEndian
  rw [foldl_putBigEndian, Nat.zero_mul, Nat.zero_add, Nat.mod_eq_of_lt h]

end Flotilla
