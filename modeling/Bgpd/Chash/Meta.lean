import Mathlib.Data.BitVec
import Mathlib.Tactic.IntervalCases

/-!
# Groups of the Hash Table

A group of `chash.c` has seven slots and one word that describes them: the lower seven bytes are the
hashes of the elements, and the upper byte has a flag for each slot in use and `CH_EVER_FULL`. All
seven hashes are compared at once.

## Main results

- `locate_exact`: no slot in use with the right hash is missed, and what is found is in use
- `mem_slotsOf_empties_iff`: the search for a free slot
- `used_setHash`, `hashByte_setFlags` and the like: what the updates leave alone
-/

namespace Bgpd.Chash

/-! ## The word of a group -/

def chEverFull : BitVec 8 := 0x80

def chSlotMask : BitVec 8 := 0x7f

/-- A flag at its place in the word, shifted by `CH_FLAGS_SHIFT`. -/
def flagBits (flag : BitVec 8) : BitVec 64 := flag.setWidth 64 <<< 56

/-- `cg_meta_set_flags`: the new word. Its result is `cgMetaCheckFlags` of the old one. -/
def cgMetaSetFlags (cgMeta : BitVec 64) (flag : BitVec 8) : BitVec 64 := cgMeta ||| flagBits flag

/-- `cg_meta_clear_flags` -/
def cgMetaClearFlags (cgMeta : BitVec 64) (flag : BitVec 8) : BitVec 64 :=
  cgMeta &&& ~~~flagBits flag

/-- `cg_meta_get_flags` -/
def cgMetaGetFlags (cgMeta : BitVec 64) : BitVec 8 := (cgMeta >>> 56).setWidth 8

/-- `cg_meta_check_flags` -/
def cgMetaCheckFlags (cgMeta : BitVec 64) (flag : BitVec 8) : Bool :=
  cgMeta &&& flagBits flag != 0

/-- `cg_meta_set_hash` -/
def cgMetaSetHash (cgMeta : BitVec 64) (slot : ℕ) (hash : BitVec 64) : BitVec 64 :=
  (cgMeta &&& ~~~((0xff : BitVec 64) <<< (slot * 8))) ||| hash <<< (slot * 8)

/-- `ch_haszero` -/
def chHaszero (lookup : BitVec 64) : BitVec 8 :=
  -- set high bit for every byte that is 0 or negative
  let a := lookup - 0x0101010101010101
  -- set high bit for every byte that is not negative
  let b := ~~~lookup &&& 0x8080808080808080
  -- now compress lookup by multiplication into high byte
  (((a &&& b) * 0x0002040810204080) >>> 56).setWidth 8

/-- `ch_meta_locate` -/
def chMetaLocate (cgMeta mask : BitVec 64) : BitVec 8 :=
  cgMetaGetFlags cgMeta &&& (chEverFull ||| chHaszero (cgMeta ^^^ mask))

/-- `ffs` -/
def ffs (slots : BitVec 8) : ℕ :=
  match (List.range 8).find? fun i => slots.getLsbD i with
  | none => 0
  | some i => i + 1

/-- The loop over the bits of `slots`, which are not more than eight. -/
def slotLoop : ℕ → BitVec 8 → List ℕ
  | 0, _ => []
  | n + 1, slots => if slots = 0 then [] else (ffs slots - 1) :: slotLoop n (slots &&& (slots - 1))

/-- The slots of `hits & CH_SLOT_MASK`, in the order of the loop. -/
def slotsOf (hits : BitVec 8) : List ℕ := slotLoop 8 (hits &&& chSlotMask)

/-- The free slots of a group. -/
def empties (cgMeta : BitVec 64) : BitVec 8 := ~~~cgMetaGetFlags cgMeta &&& chSlotMask

/-! ## What the word says -/

/-- The slot is in use. -/
def used (cgMeta : BitVec 64) (i : ℕ) : Bool := cgMeta.getLsbD (56 + i)

/-- The group was full once. -/
def everFull (cgMeta : BitVec 64) : Bool := cgMeta.getLsbD 63

/-- The hash of a slot. -/
def hashByte (cgMeta : BitVec 64) (i : ℕ) : BitVec 8 := cgMeta.extractLsb' (8 * i) 8

/-- `CH_H3(h) * 0x0101010101010101`: the hash in every byte. -/
def chMask (h : BitVec 64) : BitVec 64 := (h &&& 0xff) * 0x0101010101010101

variable {m mask x h : BitVec 64} {i j : ℕ}

theorem getLsbD_getFlags (hi : i < 8) : (cgMetaGetFlags m).getLsbD i = m.getLsbD (56 + i) := by
  simp [cgMetaGetFlags, hi]

theorem slotLoop_eq : ∀ hits : BitVec 8,
    slotLoop 8 (hits &&& chSlotMask) = (List.range 7).filter fun i => hits.getLsbD i := by
  decide +kernel

/-- The loop goes over the slots of the mask, from the lowest. -/
theorem slotsOf_eq (hits : BitVec 8) :
    slotsOf hits = (List.range 7).filter fun i => hits.getLsbD i :=
  slotLoop_eq hits

theorem mem_slotsOf_iff (hits : BitVec 8) : i ∈ slotsOf hits ↔ i < 7 ∧ hits.getLsbD i = true := by
  rw [slotsOf_eq, List.mem_filter, List.mem_range]

/-! ## The byte-parallel match -/

/-- The high bit of a byte of the difference is set where the byte was zero, with or without a
    borrow from the bytes below. -/
theorem getLsbD_sub_of_zero (hj : j < 7) (hzero : hashByte x j = 0) :
    (x - 0x0101010101010101).getLsbD (8 * j + 7) = true := by
  have hbyte : x.toNat / 2 ^ (8 * j) % 256 = 0 := by
    have h := congrArg BitVec.toNat hzero
    simpa [hashByte, Nat.shiftRight_eq_div_pow] using h
  have hsub : (x - 0x0101010101010101).toNat =
      (2 ^ 64 - 0x0101010101010101 + x.toNat) % 2 ^ 64 := by
    simp [BitVec.toNat_sub]
  have hlt := x.isLt
  rw [BitVec.getLsbD, Nat.testBit_eq_decide_div_mod_eq, hsub, decide_eq_true_iff]
  interval_cases j <;> simp only [Nat.reduceMul, Nat.reduceAdd, Nat.reducePow] at hbyte ⊢ <;> omega

/-- The high bits of the lower `n` bytes, from their numbers. -/
def spread (f : BitVec 8) : ℕ → BitVec 64
  | 0 => 0
  | n + 1 => spread f n ||| if f.getLsbD n then BitVec.twoPow 64 (8 * n + 7) else 0

/-- The multiplication collects the high bits of the lower seven bytes: no two of its partial
    products meet in a bit. -/
theorem spread_mul : ∀ f : BitVec 8,
    ((spread f 8 * 0x0002040810204080) >>> 56).setWidth 8 = f &&& chSlotMask := by
  decide +kernel

/-- `spread` puts bit `i` of the flags at the top of byte `i`. -/
theorem getLsbD_spread (f : BitVec 8) {i : ℕ} (hi : i < 64) (n : ℕ) :
    (spread f n).getLsbD i = (decide (i < 8 * n) && (i % 8 == 7 && f.getLsbD (i / 8))) := by
  induction n with
  | zero => simp [spread]
  | succ n ih =>
    rw [spread, BitVec.getLsbD_or, ih]
    by_cases hlast : i = 8 * n + 7
    · have hmod : i % 8 = 7 := by omega
      have hdiv : i / 8 = n := by omega
      have hlow : ¬ i < 8 * n := by omega
      have hnext : i < 8 * (n + 1) := by omega
      cases hbit : f.getLsbD n <;> simp [hmod, hdiv, hbit, hlow, hnext, ← hlast, hi]
    · have hbit : (if f.getLsbD n then BitVec.twoPow 64 (8 * n + 7) else 0).getLsbD i = false := by
        split_ifs
        · simp [BitVec.getLsbD_twoPow, Ne.symm hlast]
        · simp
      rw [hbit, Bool.or_false]
      by_cases hmod : i % 8 = 7
      · have hiff : i < 8 * n ↔ i < 8 * (n + 1) := by omega
        simp only [hiff]
      · rw [beq_false_of_ne hmod, Bool.false_and, Bool.and_false, Bool.and_false]

theorem getLsbD_highBits : ∀ i < 64,
    (0x8080808080808080 : BitVec 64).getLsbD i = (i % 8 == 7) := by
  decide +kernel

theorem exists_getLsbD (p : ℕ → Bool) : ∃ f : BitVec 8, ∀ j < 8, f.getLsbD j = p j := by
  refine ⟨(BitVec.ofBoolListLE ((List.range 8).map p)).setWidth 8, fun j hj => ?_⟩
  rw [BitVec.getLsbD_setWidth, BitVec.getLsbD_ofBoolListLE]
  simp [List.getD, hj]

/-- A word with nothing but high bits is spread out. -/
theorem eq_spread (y : BitVec 64) :
    ∃ f : BitVec 8, y &&& 0x8080808080808080 = spread f 8 ∧
      ∀ j < 8, f.getLsbD j = y.getLsbD (8 * j + 7) := by
  obtain ⟨f, hf⟩ := exists_getLsbD fun j => y.getLsbD (8 * j + 7)
  refine ⟨f, BitVec.eq_of_getLsbD_eq fun i hi => ?_, hf⟩
  rw [BitVec.getLsbD_and, getLsbD_highBits i hi, getLsbD_spread f hi, hf (i / 8) (by omega),
    decide_eq_true (show i < 8 * 8 by omega), Bool.true_and]
  by_cases hmod : i % 8 = 7
  · rw [show 8 * (i / 8) + 7 = i by omega, Bool.and_comm]
  · rw [beq_false_of_ne hmod, Bool.and_false, Bool.false_and]

/-- What `ch_haszero` says about a byte. -/
theorem getLsbD_chHaszero (hj : j < 8) :
    (chHaszero x).getLsbD j =
      (decide (j < 7) && ((x - 0x0101010101010101).getLsbD (8 * j + 7) &&
        !x.getLsbD (8 * j + 7))) := by
  obtain ⟨f, hspread, hf⟩ := eq_spread ((x - 0x0101010101010101) &&& ~~~x)
  have hzero : chHaszero x = f &&& chSlotMask := by
    rw [← spread_mul f, ← hspread, BitVec.and_assoc]
    rfl
  have hmask : ∀ i < 8, chSlotMask.getLsbD i = decide (i < 7) := by decide
  rw [hzero, BitVec.getLsbD_and, hf j hj, hmask j hj, BitVec.getLsbD_and, BitVec.getLsbD_not,
    decide_eq_true (show 8 * j + 7 < 64 by omega), Bool.true_and, Bool.and_comm]

theorem getLsbD_of_hashByte (hzero : hashByte x j = 0) :
    x.getLsbD (8 * j + 7) = false := by
  have h := congrArg (BitVec.getLsbD · 7) hzero
  simpa [hashByte] using h

theorem chHaszero_of_zero (hj : j < 7) (hzero : hashByte x j = 0) :
    (chHaszero x).getLsbD j = true := by
  rw [getLsbD_chHaszero (by omega), getLsbD_sub_of_zero hj hzero,
    getLsbD_of_hashByte hzero]
  simp [hj]

theorem hashByte_xor : hashByte (m ^^^ mask) i = hashByte m i ^^^ hashByte mask i := by
  apply BitVec.eq_of_getLsbD_eq
  intro k hk
  simp [hashByte, hk]

theorem getLsbD_locate (hi : i < 7) :
    (chMetaLocate m mask).getLsbD i = (used m i && (chHaszero (m ^^^ mask)).getLsbD i) := by
  have hfull : ∀ i < 7, chEverFull.getLsbD i = false := by decide
  rw [chMetaLocate, BitVec.getLsbD_and, getLsbD_getFlags (by omega), BitVec.getLsbD_or, hfull i hi,
    Bool.false_or, used]

/-- A slot in use with the hash of the mask is found. -/
theorem mem_locate (hi : i < 7) (hused : used m i = true)
    (hhash : hashByte m i = hashByte mask i) : i ∈ slotsOf (chMetaLocate m mask) := by
  have hzero : hashByte (m ^^^ mask) i = 0 := by
    rw [hashByte_xor, hhash, BitVec.xor_self]
    rfl
  rw [mem_slotsOf_iff, getLsbD_locate hi, hused, chHaszero_of_zero hi hzero]
  exact ⟨hi, rfl⟩

/-- What is found is in use. -/
theorem used_of_mem_locate (hi : i ∈ slotsOf (chMetaLocate m mask)) :
    i < 7 ∧ used m i = true := by
  obtain ⟨hlt, hbit⟩ := (mem_slotsOf_iff _).1 hi
  rw [getLsbD_locate hlt, Bool.and_eq_true] at hbit
  exact ⟨hlt, hbit.1⟩

theorem everFull_locate : (chMetaLocate m mask).getLsbD 7 = everFull m := by
  have hfull : chEverFull.getLsbD 7 = true := by decide
  rw [chMetaLocate, BitVec.getLsbD_and, getLsbD_getFlags (by omega), BitVec.getLsbD_or, hfull,
    Bool.true_or, Bool.and_true, everFull]

/-! ## The search for a free slot -/

theorem getLsbD_empties (hi : i < 7) : (empties m).getLsbD i = !used m i := by
  have hmask : ∀ i < 7, chSlotMask.getLsbD i = true := by decide
  rw [empties, BitVec.getLsbD_and, BitVec.getLsbD_not, getLsbD_getFlags (by omega), hmask i hi,
    decide_eq_true (show i < 8 by omega), Bool.true_and, Bool.and_true, used]

theorem mem_slotsOf_empties_iff : i ∈ slotsOf (empties m) ↔ i < 7 ∧ used m i = false := by
  rw [mem_slotsOf_iff]
  apply and_congr_right
  intro hi
  rw [getLsbD_empties hi, Bool.not_eq_true']

theorem ffs_spec : ∀ f : BitVec 8, (f &&& chSlotMask = 0 → ∀ i < 7, f.getLsbD i = false) ∧
    (f &&& chSlotMask ≠ 0 → ffs (f &&& chSlotMask) - 1 < 7 ∧
      f.getLsbD (ffs (f &&& chSlotMask) - 1) = true) := by
  decide +kernel

theorem empties_and : empties m &&& chSlotMask = empties m := by
  rw [empties, BitVec.and_assoc, BitVec.and_self]

/-- No free slot: all seven are in use. -/
theorem used_of_empties (hzero : empties m = 0) (hi : i < 7) : used m i = true := by
  have h := (ffs_spec (empties m)).1 (empties_and.trans hzero) i hi
  rw [getLsbD_empties hi] at h
  simpa using h

/-- The slot that `ch_sub_insert` takes is free. -/
theorem free_of_empties (hne : empties m ≠ 0) :
    ffs (empties m) - 1 < 7 ∧ used m (ffs (empties m) - 1) = false := by
  have h := (ffs_spec (empties m)).2 (by rwa [empties_and])
  rw [empties_and] at h
  refine ⟨h.1, ?_⟩
  have hbit := h.2
  rw [getLsbD_empties h.1] at hbit
  simpa using hbit

/-- The match and the search for a free slot: every slot in use with the hash is found, every slot
    found is in use, the mark of the group is passed on, and a slot is taken for free only when it
    is not in use. -/
theorem locate_exact (m mask : BitVec 64) :
    (∀ i < 7, used m i = true ∧ hashByte m i = hashByte mask i →
      i ∈ slotsOf (chMetaLocate m mask)) ∧
    (∀ i ∈ slotsOf (chMetaLocate m mask), i < 7 ∧ used m i = true) ∧
    (chMetaLocate m mask).getLsbD 7 = everFull m ∧
    (∀ i, i ∈ slotsOf (empties m) ↔ i < 7 ∧ used m i = false) ∧
    (empties m ≠ 0 → ffs (empties m) - 1 < 7 ∧ used m (ffs (empties m) - 1) = false) := by
  refine ⟨?_, ?_, everFull_locate, ?_, free_of_empties⟩
  · intro i hi hmatch
    exact mem_locate hi hmatch.1 hmatch.2
  · intro i hi
    exact used_of_mem_locate hi
  · intro i
    exact mem_slotsOf_empties_iff

/-- A group with one slot in use, whose hash is 0x42, and a full group. -/
theorem locate_exact_sample :
    0 ∈ slotsOf (chMetaLocate 0x0100000000000042 (chMask 0x42)) ∧
      empties 0x7f00000000000000 = 0 ∧ ffs (empties 0x0100000000000042) - 1 = 1 := by
  refine ⟨?_, by decide, by decide⟩
  exact (locate_exact 0x0100000000000042 (chMask 0x42)).1 0 (by decide) (by decide)

/-! ## Changes of the word -/

theorem getLsbD_flagBits (f : BitVec 8) (hi : i < 64) :
    (flagBits f).getLsbD i = (decide (56 ≤ i) && f.getLsbD (i - 56)) := by
  simp only [flagBits, BitVec.getLsbD_shiftLeft, BitVec.getLsbD_setWidth]
  by_cases hle : 56 ≤ i
  · simp [hi, hle, show ¬ i < 56 by omega, show i - 56 < 64 by omega]
  · simp [hle, show i < 56 by omega]

theorem used_setFlags (f : BitVec 8) (hi : i < 8) :
    used (cgMetaSetFlags m f) i = (used m i || f.getLsbD i) := by
  simp [used, cgMetaSetFlags, getLsbD_flagBits f (show 56 + i < 64 by omega)]

theorem used_clearFlags (f : BitVec 8) (hi : i < 8) :
    used (cgMetaClearFlags m f) i = (used m i && !f.getLsbD i) := by
  have hlt : 56 + i < 64 := by omega
  have hsub : 56 + i - 56 = i := by omega
  rw [used, cgMetaClearFlags, BitVec.getLsbD_and, BitVec.getLsbD_not, getLsbD_flagBits f hlt, used,
    hsub, decide_eq_true hlt, decide_eq_true (show 56 ≤ 56 + i by omega), Bool.true_and,
    Bool.true_and]

/-- The mark is the eighth flag. -/
theorem everFull_eq_used : everFull m = used m 7 := rfl

theorem hashByte_setFlags (f : BitVec 8) (hi : i < 7) :
    hashByte (cgMetaSetFlags m f) i = hashByte m i := by
  apply BitVec.eq_of_getLsbD_eq
  intro k hk
  have hlow : ¬ 56 ≤ 8 * i + k := by omega
  simp [hashByte, cgMetaSetFlags, hk, getLsbD_flagBits f (show 8 * i + k < 64 by omega), hlow]

theorem hashByte_clearFlags (f : BitVec 8) (hi : i < 7) :
    hashByte (cgMetaClearFlags m f) i = hashByte m i := by
  apply BitVec.eq_of_getLsbD_eq
  intro k hk
  have hlt : 8 * i + k < 64 := by omega
  rw [hashByte, hashByte, BitVec.getLsbD_extractLsb', BitVec.getLsbD_extractLsb', cgMetaClearFlags,
    BitVec.getLsbD_and, BitVec.getLsbD_not, getLsbD_flagBits f hlt, decide_eq_true hlt,
    decide_eq_false (show ¬ 56 ≤ 8 * i + k by omega), Bool.false_and, Bool.not_false,
    Bool.and_true, Bool.and_true]

theorem getLsbD_one_shiftLeft (hi : i < 8) : ((1 : BitVec 8) <<< i).getLsbD j = decide (j = i) := by
  have hpow : (1 : BitVec 8) <<< i = BitVec.twoPow 8 i := rfl
  rw [hpow, BitVec.getLsbD_twoPow, decide_eq_true hi, Bool.true_and]
  exact decide_eq_decide.2 eq_comm

theorem getLsbD_chEverFull : chEverFull.getLsbD i = decide (i = 7) := by
  have hbit : chEverFull = (1 : BitVec 8) <<< 7 := rfl
  rw [hbit, getLsbD_one_shiftLeft (by decide)]

theorem checkFlags_everFull : cgMetaCheckFlags m chEverFull = everFull m := by
  have hbits : flagBits chEverFull = BitVec.twoPow 64 63 := by decide
  rw [cgMetaCheckFlags, hbits, BitVec.and_twoPow, everFull]
  cases hbit : m.getLsbD 63
  · rfl
  · rfl

/-- A bit of the word after `cg_meta_set_hash`. -/
theorem getLsbD_setHash {hash : BitVec 64} (hi : i < 64) :
    (cgMetaSetHash m j hash).getLsbD i =
      (m.getLsbD i && !(decide (8 * j ≤ i) && decide (i < 8 * j + 8)) ||
        decide (8 * j ≤ i) && hash.getLsbD (i - 8 * j)) := by
  have hff : ∀ k, (0xff : BitVec 64).getLsbD k = decide (k < 8) := by
    intro k
    by_cases hk : k < 64
    · revert k
      decide
    · rw [BitVec.getLsbD_of_ge _ _ (by omega), decide_eq_false (by omega)]
  simp only [cgMetaSetHash, BitVec.getLsbD_or, BitVec.getLsbD_and, BitVec.getLsbD_not,
    BitVec.getLsbD_shiftLeft, hff, hi, decide_true, Bool.true_and, Nat.mul_comm j 8]
  by_cases hle : 8 * j ≤ i
  · have hiff : i - 8 * j < 8 ↔ i < 8 * j + 8 := by omega
    simp [hle, show ¬ i < 8 * j by omega, hiff]
  · simp [hle, show i < 8 * j by omega]

theorem used_setHash {hash : BitVec 64} (hhash : ∀ k, 8 ≤ k → hash.getLsbD k = false)
    (hj : j < 7) (hi : i < 8) : used (cgMetaSetHash m j hash) i = used m i := by
  rw [used, getLsbD_setHash (by omega), hhash (56 + i - 8 * j) (by omega),
    decide_eq_false (show ¬ 56 + i < 8 * j + 8 by omega)]
  simp [used]

theorem hashByte_setHash {hash : BitVec 64} (hhash : ∀ k, 8 ≤ k → hash.getLsbD k = false)
    (hj : j < 7) (hi : i < 7) :
    hashByte (cgMetaSetHash m j hash) i = if i = j then hash.setWidth 8 else hashByte m i := by
  apply BitVec.eq_of_getLsbD_eq
  intro k hk
  rw [hashByte, BitVec.getLsbD_extractLsb', decide_eq_true hk, Bool.true_and,
    getLsbD_setHash (by omega)]
  by_cases heq : i = j
  · subst heq
    simp [hk, show 8 * i ≤ 8 * i + k by omega]
  · rw [if_neg heq, hashByte, BitVec.getLsbD_extractLsb', decide_eq_true hk, Bool.true_and]
    rcases Nat.lt_or_gt_of_ne heq with hlt | hgt
    · rw [decide_eq_false (show ¬ 8 * j ≤ 8 * i + k by omega)]
      simp
    · rw [decide_eq_false (show ¬ 8 * i + k < 8 * j + 8 by omega),
        hhash (8 * i + k - 8 * j) (by omega)]
      simp

/-- The bytes of the mask. -/
theorem hashByte_chMask (hi : i < 8) : hashByte (chMask h) i = h.setWidth 8 := by
  have hrep : ∀ f : BitVec 8, ∀ i < 8,
      hashByte (f.setWidth 64 * 0x0101010101010101) i = f := by
    decide +kernel
  have hlow : h &&& 0xff = (h.setWidth 8).setWidth 64 := by
    apply BitVec.eq_of_toNat_eq
    have hpow : h.toNat % 2 ^ 8 < 2 ^ 64 := by omega
    rw [BitVec.toNat_and, BitVec.toNat_setWidth, BitVec.toNat_setWidth, Nat.mod_eq_of_lt hpow]
    exact Nat.and_two_pow_sub_one_eq_mod h.toNat 8
  rw [chMask, hlow]
  exact hrep _ i hi

end Bgpd.Chash
