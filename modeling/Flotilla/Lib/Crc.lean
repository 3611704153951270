/-
  Lib.Crc — division by a polynomial in a shift register.

  The register holds the remainder with its highest power in the lowest bit.  A
  bit of the message is added to that bit, the register moves down, and the
  polynomial is added if a one fell out.  A polynomial with its highest bit set
  loses no information, so a register tells messages apart that differ in no more
  bits, one behind the other, than it has.
-/
import Mathlib

namespace Flotilla.Crc

variable {w : Nat}

/-- A bit in the lowest place. -/
def low (b : Bool) : BitVec w := BitVec.setWidth w (BitVec.ofBool b)

def shift (poly c : BitVec w) : BitVec w := if c.getLsbD 0 then poly ^^^ (c >>> 1) else c >>> 1

def run (poly : BitVec w) : BitVec w → List Bool → BitVec w
  | c, [] => c
  | c, b :: bits => run poly (shift poly (c ^^^ low b)) bits

/-- The bits as a number, the first one lowest. -/
def word : List Bool → BitVec w
  | [] => 0
  | b :: bits => low b ^^^ (word bits <<< 1)

variable {poly : BitVec w} {bits bits' : List Bool}

/-! ## One move. -/

theorem shift_xor (a b : BitVec w) : shift poly (a ^^^ b) = shift poly a ^^^ shift poly b := by
  unfold shift
  rw [BitVec.getLsbD_xor, BitVec.ushiftRight_xor_distrib]
  generalize a >>> 1 = x
  generalize b >>> 1 = y
  have hcancel : poly ^^^ x ^^^ (poly ^^^ y) = x ^^^ y := by
    rw [BitVec.xor_comm poly x, BitVec.xor_assoc, ← BitVec.xor_assoc poly, BitVec.xor_self,
      BitVec.zero_xor]
  cases a.getLsbD 0 <;> cases b.getLsbD 0
  · simp
  · simp only [Bool.bne_true, Bool.not_false, if_true, Bool.false_eq_true, if_false]
    ac_rfl
  · simp only [Bool.bne_false, if_true, Bool.false_eq_true, if_false]
    ac_rfl
  · simp [hcancel]

theorem shift_injective (hpoly : poly.msb = true) : Function.Injective (shift poly) := by
  have hzero : ∀ c : BitVec w, shift poly c = 0#w → c = 0#w := by
    intro c hc
    unfold shift at hc
    split at hc
    · -- the polynomial's highest bit is not in what moved down
      have hmsb := congrArg BitVec.msb hc
      rw [BitVec.msb_xor, hpoly] at hmsb
      simp at hmsb
    · rename_i hlow
      apply BitVec.eq_of_getLsbD_eq
      intro i hi
      rw [BitVec.getLsbD_zero]
      cases i with
      | zero => simpa using hlow
      | succ i =>
        have hbit := congrArg (fun x => BitVec.getLsbD x i) hc
        simpa [Nat.add_comm] using hbit
  intro a b hab
  have hsum : shift poly (a ^^^ b) = 0#w := by rw [shift_xor, hab, BitVec.xor_self]
  exact BitVec.xor_eq_zero_iff.mp (hzero _ hsum)

theorem iterate_shift_high (k : Nat) {c : BitVec w} (h : ∀ i < k, c.getLsbD i = false) :
    (shift poly)^[k] c = c >>> k := by
  induction k with
  | zero => simp
  | succ k ih =>
    have hlow : (c >>> k).getLsbD 0 = false := by simpa using h k (Nat.lt_succ_self k)
    rw [Function.iterate_succ_apply', ih fun i hi => h i (by omega), shift, hlow,
      BitVec.shiftRight_add]
    rfl

theorem iterate_shift_xor (k : Nat) (a b : BitVec w) :
    (shift poly)^[k] (a ^^^ b) = (shift poly)^[k] a ^^^ (shift poly)^[k] b := by
  induction k with
  | zero => rfl
  | succ k ih => simp only [Function.iterate_succ_apply', ih, shift_xor]

/-! ## Several bits at once. -/

theorem getLsbD_low (b : Bool) (i : Nat) :
    (low b : BitVec w).getLsbD i = (decide (i < w) && decide (i = 0) && b) := by
  unfold low
  rw [BitVec.getLsbD_setWidth, BitVec.getLsbD_ofBool]
  cases b <;> simp

theorem getLsbD_word (bits : List Bool) (i : Nat) :
    (word bits : BitVec w).getLsbD i = (decide (i < w) && bits.getD i false) := by
  induction bits generalizing i with
  | nil => simp [word]
  | cons b bits ih =>
    rw [word, BitVec.getLsbD_xor, getLsbD_low, BitVec.getLsbD_shiftLeft, ih]
    cases i with
    | zero => simp
    | succ i =>
      by_cases hi : i + 1 < w
      · have hi' : i < w := by omega
        simp [hi, hi']
      · simp [hi]

theorem run_eq_iterate (hlen : bits.length ≤ w) (c : BitVec w) :
    run poly c bits = (shift poly)^[bits.length] (c ^^^ word bits) := by
  induction bits generalizing c with
  | nil =>
    show c = c ^^^ 0#w
    rw [BitVec.xor_zero]
  | cons b bits ih =>
    rw [List.length_cons] at hlen
    -- the bits behind the first one only move down
    have hrest : shift poly (word bits <<< 1) = word bits := by
      have hlow : (word bits <<< 1 : BitVec w).getLsbD 0 = false := by simp
      unfold shift
      rw [hlow]
      apply BitVec.eq_of_getLsbD_eq
      intro i hi
      show ((word bits <<< 1 : BitVec w) >>> 1).getLsbD i = _
      rw [BitVec.getLsbD_ushiftRight, BitVec.getLsbD_shiftLeft, Nat.add_sub_cancel_left]
      by_cases hlast : 1 + i < w
      · simp [hlast]
      · have hend : bits.length ≤ i := by omega
        simp [getLsbD_word, hend, hlast]
    rw [run, ih (by omega), List.length_cons, Function.iterate_succ_apply, word,
      ← BitVec.xor_assoc, shift_xor (c ^^^ low b), hrest]

theorem word_inj (hlen : bits.length = bits'.length) (hw : bits.length ≤ w)
    (h : (word bits : BitVec w) = word bits') : bits = bits' := by
  apply List.ext_getElem hlen
  intro i hi hi'
  have hbit := congrArg (fun x => BitVec.getLsbD x i) h
  rw [getLsbD_word, getLsbD_word, decide_eq_true (by omega), Bool.true_and, Bool.true_and] at hbit
  simpa [hi, hi'] using hbit

/-! ## Bursts. -/

theorem run_append (c : BitVec w) (a b : List Bool) :
    run poly c (a ++ b) = run poly (run poly c a) b := by
  induction a generalizing c with
  | nil => rfl
  | cons x a ih => exact ih _

theorem run_injective (hpoly : poly.msb = true) (bits : List Bool) :
    Function.Injective fun c => run poly c bits := by
  induction bits with
  | nil => exact fun _ _ h => h
  | cons b bits ih =>
    intro c c' h
    exact BitVec.xor_left_inj (low b) |>.mp (shift_injective hpoly (ih h))

theorem run_ne_of_burst (hpoly : poly.msb = true) (hlen : bits.length = bits'.length)
    (hw : bits.length ≤ w) (hne : bits ≠ bits') (c : BitVec w) (front back : List Bool) :
    run poly c (front ++ (bits ++ back)) ≠ run poly c (front ++ (bits' ++ back)) := by
  intro h
  simp only [run_append] at h
  have hburst := run_injective hpoly back h
  generalize run poly c front = c' at hburst
  rw [run_eq_iterate hw, run_eq_iterate (hlen.symm.trans_le hw), hlen] at hburst
  have hword := (shift_injective hpoly).iterate _ hburst
  exact hne (word_inj hlen hw ((BitVec.xor_right_inj c').mp hword))

end Flotilla.Crc
