import Mathlib.Data.Nat.Bitwise
import Mathlib.Tactic.SplitIfs

/-!
# Bits of Byte Strings

A byte string read bit by bit, the most significant bit of a byte first. Behind its end a string
goes on with zeros.

## Main results

- `eq_of_bitAt`: strings of one length with the same bits are the same
- `bitAt_append`, `bitAt_take`: the bits of parts of a string
- `byteBit_shiftRight`, `byteBit_shiftLeft`: a byte that is shifted
-/

namespace Bgpd.Lib

/-- Bit `j` of a byte, counted from the most significant one. -/
def byteBit (b : UInt8) (j : ℕ) : Bool := b.toNat.testBit (7 - j)

/-- Bit `i` of a string. -/
def bitAt (l : List UInt8) (i : ℕ) : Bool := byteBit (l.getD (i / 8) 0) (i % 8)

variable {a b : List UInt8} {x y : UInt8} {i j k n : ℕ}

/-! ## Bytes -/

@[simp] theorem byteBit_zero (j : ℕ) : byteBit 0 j = false := Nat.zero_testBit _

/-- A byte is given by its bits. -/
theorem eq_of_byteBit (h : ∀ j < 8, byteBit x j = byteBit y j) : x = y := by
  apply UInt8.toNat_inj.mp
  apply Nat.eq_of_testBit_eq
  intro i
  by_cases hi : i < 8
  · have hbit := h (7 - i) (by omega)
    unfold byteBit at hbit
    rwa [show 7 - (7 - i) = i by omega] at hbit
  · have hpow : 2 ^ 8 ≤ 2 ^ i := Nat.pow_le_pow_right (by decide) (by omega)
    rw [Nat.testBit_lt_two_pow (x.toNat_lt.trans_le hpow),
      Nat.testBit_lt_two_pow (y.toNat_lt.trans_le hpow)]

theorem byteBit_or (x y : UInt8) (j : ℕ) : byteBit (x ||| y) j = (byteBit x j || byteBit y j) := by
  unfold byteBit
  rw [UInt8.toNat_or, Nat.testBit_or]

theorem byteBit_shiftRight (x : UInt8) (hk : k < 8) (hj : j < 8) :
    byteBit (x >>> UInt8.ofNat k) j = (decide (k ≤ j) && byteBit x (j - k)) := by
  unfold byteBit
  have hmod : (UInt8.ofNat k).toNat % 8 = k := by
    rw [UInt8.toNat_ofNat_of_lt' (by simp [UInt8.size]; omega), Nat.mod_eq_of_lt hk]
  rw [UInt8.toNat_shiftRight, hmod, Nat.testBit_shiftRight]
  by_cases hkj : k ≤ j
  · rw [decide_eq_true hkj, Bool.true_and]
    congr 1
    omega
  · have hpow : 2 ^ 8 ≤ 2 ^ (k + (7 - j)) := Nat.pow_le_pow_right (by decide) (by omega)
    rw [decide_eq_false hkj, Bool.false_and, Nat.testBit_lt_two_pow (x.toNat_lt.trans_le hpow)]

theorem byteBit_shiftLeft (x : UInt8) (hk : k < 8) (hj : j < 8) :
    byteBit (x <<< UInt8.ofNat k) j = (decide (j + k < 8) && byteBit x (j + k)) := by
  unfold byteBit
  have hmod : (UInt8.ofNat k).toNat % 8 = k := by
    rw [UInt8.toNat_ofNat_of_lt' (by simp [UInt8.size]; omega), Nat.mod_eq_of_lt hk]
  rw [UInt8.toNat_shiftLeft, hmod, Nat.testBit_mod_two_pow, Nat.testBit_shiftLeft]
  have h7 : 7 - j < 8 := by omega
  rw [decide_eq_true h7, Bool.true_and]
  by_cases hjk : j + k < 8
  · have hle : 7 - j ≥ k := by omega
    rw [decide_eq_true hjk, decide_eq_true hle, Bool.true_and, Bool.true_and]
    congr 1
    omega
  · have hle : ¬ 7 - j ≥ k := by omega
    rw [decide_eq_false hjk, decide_eq_false hle, Bool.false_and, Bool.false_and]

/-! ## Strings -/

@[simp] theorem bitAt_nil (i : ℕ) : bitAt [] i = false := byteBit_zero _

theorem bitAt_cons (x : UInt8) (l : List UInt8) (i : ℕ) :
    bitAt (x :: l) i = if i < 8 then byteBit x i else bitAt l (i - 8) := by
  unfold bitAt
  split_ifs with hi
  · rw [Nat.div_eq_of_lt hi, Nat.mod_eq_of_lt hi, List.getD_cons_zero]
  · have hdiv : i / 8 = (i - 8) / 8 + 1 := by omega
    have hmod : i % 8 = (i - 8) % 8 := by omega
    rw [hdiv, hmod, List.getD_cons_succ]

/-- Behind the end there are zeros. -/
theorem bitAt_of_ge (h : 8 * a.length ≤ i) : bitAt a i = false := by
  unfold bitAt
  rw [List.getD_eq_default _ _ (by omega), byteBit_zero]

/-- A string is given by its length and its bits. -/
theorem eq_of_bitAt (hlen : a.length = b.length) (h : ∀ i < 8 * a.length, bitAt a i = bitAt b i) :
    a = b := by
  induction a generalizing b with
  | nil => exact (List.length_eq_zero_iff.mp hlen.symm).symm
  | cons x a ih =>
    cases b with
    | nil => exact nomatch hlen
    | cons y b =>
      simp only [List.length_cons, Nat.add_right_cancel_iff] at hlen h
      have hxy : x = y := by
        apply eq_of_byteBit
        intro j hj
        have hbit := h j (by omega)
        rwa [bitAt_cons, bitAt_cons, if_pos hj, if_pos hj] at hbit
      have hab : a = b := by
        apply ih hlen
        intro i hi
        have hbit := h (i + 8) (by omega)
        rwa [bitAt_cons, bitAt_cons, if_neg (by omega), if_neg (by omega),
          Nat.add_sub_cancel] at hbit
      rw [hxy, hab]

theorem bitAt_append (a b : List UInt8) (i : ℕ) :
    bitAt (a ++ b) i = if i < 8 * a.length then bitAt a i else bitAt b (i - 8 * a.length) := by
  induction a generalizing i with
  | nil => simp
  | cons x a ih =>
    rw [List.cons_append, bitAt_cons, ih, bitAt_cons, List.length_cons]
    by_cases hi : i < 8
    · rw [if_pos hi, if_pos hi, if_pos (by omega)]
    · rw [if_neg hi, if_neg hi]
      by_cases hlt : i < 8 * (a.length + 1)
      · rw [if_pos (by omega), if_pos hlt]
      · rw [if_neg (by omega), if_neg hlt]
        congr 1
        omega

/-- Zeros at the end do not matter. -/
@[simp] theorem bitAt_append_replicate (a : List UInt8) (n i : ℕ) :
    bitAt (a ++ List.replicate n 0) i = bitAt a i := by
  rw [bitAt_append]
  split_ifs with h
  · rfl
  · rw [bitAt_of_ge (a := a) (by omega)]
    have hzero : ∀ m, (List.replicate n (0 : UInt8)).getD m 0 = 0 := by
      intro m
      rw [List.getD_eq_getElem?_getD, List.getElem?_replicate]
      split_ifs <;> rfl
    rw [bitAt, hzero, byteBit_zero]

theorem bitAt_take (h : i < 8 * n) : bitAt (a.take n) i = bitAt a i := by
  unfold bitAt
  rw [List.getD_eq_getElem?_getD, List.getElem?_take_of_lt (by omega),
    ← List.getD_eq_getElem?_getD]

end Bgpd.Lib
