import Mathlib.Data.Nat.Log
import Mathlib.Order.Basic
import Mathlib.Tactic.Ring

/-!
# Prefixes of Bit Vectors

A bit vector read from its most significant bit. `topBits a n` keeps the first `n` bits and
clears the others; two vectors with the same first bits part at their first different bit. The
position of this bit can be computed from the exclusive or of the two, by bisection.

## Main results

- `topBits_eq_iff`: the same first bits
- `FirstDiff`: the first different bit, and how it follows from the size of the exclusive or
- `bisect_spec`: one step of the bisection
-/

namespace Bgpd.Lib

variable {w : ℕ} {a b c : BitVec w} {m n k : ℕ}

/-! ## The first bits -/

/-- The first `n` bits, and zeros behind. -/
def topBits (a : BitVec w) (n : ℕ) : BitVec w := a &&& (BitVec.allOnes w <<< (w - n))

@[simp] theorem getMsbD_topBits (a : BitVec w) (n i : ℕ) :
    (topBits a n).getMsbD i = (a.getMsbD i && decide (i < n)) := by
  unfold topBits
  rw [BitVec.getMsbD_and, BitVec.getMsbD_shiftLeft, BitVec.getMsbD_allOnes]
  by_cases hi : i < w
  · congr 1
    apply Bool.decide_congr
    omega
  · rw [BitVec.getMsbD_of_ge a i (by omega), Bool.false_and, Bool.false_and]

theorem eq_of_msb (h : ∀ i < w, a.getMsbD i = b.getMsbD i) : a = b :=
  BitVec.eq_of_getMsbD_eq fun i hi => h i hi

theorem topBits_eq_iff :
    topBits a n = topBits b n ↔ ∀ i < n, a.getMsbD i = b.getMsbD i := by
  constructor
  · intro h i hi
    have := congrArg (fun x => x.getMsbD i) h
    simpa [hi] using this
  · intro h
    apply eq_of_msb
    intro i _
    by_cases hi : i < n
    · simp [h i hi]
    · simp [hi]

/-- `b` starts with the first `n` bits of `a` and has zeros behind. -/
theorem eq_topBits_iff :
    b = topBits a n ↔ (∀ i < n, b.getMsbD i = a.getMsbD i) ∧ ∀ i, n ≤ i → b.getMsbD i = false := by
  constructor
  · rintro rfl
    refine ⟨fun i hi => by simp [hi], fun i hi => ?_⟩
    simp [Nat.not_lt.mpr hi]
  · rintro ⟨h₁, h₂⟩
    apply eq_of_msb
    intro i _
    by_cases hi : i < n
    · simp [hi, h₁ i hi]
    · simp [hi, h₂ i (Nat.le_of_not_lt hi)]

theorem topBits_topBits (a : BitVec w) (m n : ℕ) :
    topBits (topBits a m) n = topBits a (min m n) := by
  apply eq_of_msb
  intro i _
  simp only [getMsbD_topBits, Bool.and_assoc, Nat.lt_min, Bool.decide_and]

theorem topBits_topBits_of_le (h : n ≤ m) (a : BitVec w) :
    topBits (topBits a m) n = topBits a n := by
  rw [topBits_topBits, Nat.min_eq_right h]

@[simp] theorem topBits_zero (a : BitVec w) : topBits a 0 = 0#w := by
  apply eq_of_msb
  intro i _
  simp

/-- Fewer first bits are the same if more are. -/
theorem toNat_topBits_le (a : BitVec w) (n : ℕ) : (topBits a n).toNat ≤ a.toNat := by
  unfold topBits
  rw [BitVec.toNat_and]
  exact Nat.and_le_left

theorem topBits_mono (hmn : m ≤ n) (h : topBits a n = topBits b n) : topBits a m = topBits b m := by
  rw [topBits_eq_iff] at *
  exact fun i hi => h i (Nat.lt_of_lt_of_le hi hmn)

/-- One more bit. -/
theorem topBits_succ_iff :
    topBits a (n + 1) = topBits b (n + 1) ↔
      topBits a n = topBits b n ∧ a.getMsbD n = b.getMsbD n := by
  simp only [topBits_eq_iff]
  constructor
  · exact fun h => ⟨fun i hi => h i (Nat.lt_succ_of_lt hi), h n (Nat.lt_succ_self n)⟩
  · rintro ⟨h, hn⟩ i hi
    rcases Nat.lt_succ_iff_lt_or_eq.mp hi with hi | rfl
    · exact h i hi
    · exact hn

/-! ## The first different bit -/

/-- `k` is the first position at which the two vectors differ. -/
structure FirstDiff (a b : BitVec w) (k : ℕ) : Prop where
  before : ∀ i < k, a.getMsbD i = b.getMsbD i
  differ : a.getMsbD k ≠ b.getMsbD k

theorem exists_firstDiff (h : a ≠ b) : ∃ k, FirstDiff a b k := by
  have hex : ∃ k, a.getMsbD k ≠ b.getMsbD k := by
    by_contra hno
    push Not at hno
    exact h (eq_of_msb fun i _ => hno i)
  exact ⟨Nat.find hex, fun i hi => not_not.mp (Nat.find_min hex hi), Nat.find_spec hex⟩

theorem FirstDiff.lt (h : FirstDiff a b k) : k < w := by
  by_contra hk
  apply h.differ
  rw [BitVec.getMsbD_of_ge a k (by omega), BitVec.getMsbD_of_ge b k (by omega)]

theorem FirstDiff.topBits (h : FirstDiff a b k) : Lib.topBits a k = Lib.topBits b k :=
  topBits_eq_iff.mpr h.before

/-- The vectors agree on fewer bits than any length at which they have been seen to differ. -/
theorem FirstDiff.lt_of_ne (h : FirstDiff a b k) (hne : Lib.topBits a n ≠ Lib.topBits b n) :
    k < n := by
  by_contra hk
  exact hne (topBits_mono (Nat.le_of_not_lt hk) h.topBits)

/-! ## Bisection -/

/-- One step of the search for the highest bit of `v`: if it is not among the last `k` bits,
    these are dropped. The pair is the number of dropped bits and what is left. -/
def bisect (k : ℕ) (st : ℕ × ℕ) : ℕ × ℕ :=
  if st.2 > 2 ^ k - 1 then (st.1 + k, st.2 >>> k) else st

/-- The pair splits `v`: `r` bits were dropped, and something is left. -/
def Split (v : ℕ) (st : ℕ × ℕ) : Prop := v / 2 ^ st.1 = st.2 ∧ 0 < st.2

theorem bisect_spec {v : ℕ} {st : ℕ × ℕ} (h : Split v st) (hlt : st.2 < 2 ^ (2 * k)) :
    Split v (bisect k st) ∧ (bisect k st).2 < 2 ^ k := by
  have hpos : 0 < 2 ^ k := Nat.two_pow_pos k
  unfold bisect
  split
  · next hgt =>
    rw [Nat.shiftRight_eq_div_pow]
    refine ⟨⟨?_, Nat.div_pos (by omega) hpos⟩, ?_⟩
    · show v / 2 ^ (st.1 + k) = st.2 / 2 ^ k
      rw [Nat.pow_add, ← Nat.div_div_eq_div_mul, h.1]
    · rw [Nat.div_lt_iff_lt_mul hpos, ← Nat.pow_add, ← Nat.two_mul]
      exact hlt
  · next hgt => exact ⟨h, by omega⟩

/-- When a single bit is left it is the highest one. -/
theorem Split.bounds {v : ℕ} {st : ℕ × ℕ} (h : Split v st) (hlt : st.2 < 2) :
    2 ^ st.1 ≤ v ∧ v < 2 ^ (st.1 + 1) := by
  have hone : v / 2 ^ st.1 = 1 := by
    have := h.1
    have := h.2
    omega
  have hpos : 0 < 2 ^ st.1 := Nat.two_pow_pos _
  constructor
  · by_contra hv
    rw [Nat.div_eq_of_lt (by omega)] at hone
    omega
  · rw [Nat.pow_succ, Nat.mul_comm]
    exact (Nat.div_lt_iff_lt_mul hpos).mp (by omega)

/-- The highest bit of a number. -/
theorem testBit_of_bounds {v r : ℕ} (h : 2 ^ r ≤ v ∧ v < 2 ^ (r + 1)) :
    v.testBit r = true ∧ ∀ i, r < i → v.testBit i = false := by
  constructor
  · rw [Nat.testBit_eq_decide_div_mod_eq]
    have hdiv : v / 2 ^ r = 1 := by
      apply Nat.div_eq_of_lt_le
      · simpa using h.1
      · rw [Nat.mul_comm, ← Nat.pow_succ]
        exact h.2
    simp [hdiv]
  · intro i hi
    apply Nat.testBit_lt_two_pow
    exact lt_of_lt_of_le h.2 (Nat.pow_le_pow_right (by omega) hi)

/-- The highest bit of the exclusive or is the first different bit. -/
theorem firstDiff_of_bounds {r : ℕ} (h : 2 ^ r ≤ (a ^^^ b).toNat ∧ (a ^^^ b).toNat < 2 ^ (r + 1)) :
    FirstDiff a b (w - 1 - r) := by
  obtain ⟨htop, habove⟩ := testBit_of_bounds h
  have hr : r < w := by
    by_contra hr
    have hle := Nat.pow_le_pow_right (show 0 < 2 by omega) (Nat.le_of_not_lt hr)
    have hlt := (a ^^^ b).isLt
    omega
  have hbit : ∀ i < w, (a.getMsbD i ^^ b.getMsbD i) = (a ^^^ b).toNat.testBit (w - 1 - i) := by
    intro i hi
    rw [← BitVec.getMsbD_xor, BitVec.getMsbD_eq_getLsbD, decide_eq_true hi, Bool.true_and]
    rfl
  constructor
  · intro i hi
    have := hbit i (by omega)
    rw [habove _ (by omega)] at this
    simpa using this
  · have := hbit (w - 1 - r) (by omega)
    rw [show w - 1 - (w - 1 - r) = r by omega, htop] at this
    simpa using this

end Bgpd.Lib
