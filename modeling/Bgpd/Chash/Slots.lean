import Bgpd.Chash.Sub
import Mathlib.Algebra.BigOperators.Group.Finset.Basic
import Mathlib.Algebra.Order.BigOperators.Group.Finset

/-!
# What a Sub Table Holds

The numbers and the elements of a sub table are sums over its groups, and those of a group are sums
over its slots. All changes are changes of one slot, so one lemma about sums gives the changes of
every number.

## Main results

- `total_setGroup`: a sum over the groups after a change of one of them
- `contents_put`, `contents_clear`, `usedCount_put`, `usedCount_clear`: the change of a slot
- `Sound`: the numbers of `struct ch_meta` are exact
-/

namespace Bgpd.Chash

open Finset

/-! ## Sums -/

/-- A sum over functions that agree off one index. -/
theorem sum_change {ι M : Type} [DecidableEq ι] [AddCommMonoid M] {s : Finset ι} {f g : ι → M}
    {j : ι} (hj : j ∈ s) (hagree : ∀ i ∈ s, i ≠ j → f i = g i) :
    ∑ i ∈ s, f i + g j = ∑ i ∈ s, g i + f j := by
  have hrest : ∑ i ∈ s.erase j, f i = ∑ i ∈ s.erase j, g i := by
    apply sum_congr rfl
    intro i hi
    exact hagree i (mem_of_mem_erase hi) (ne_of_mem_erase hi)
  rw [← add_sum_erase s f hj, ← add_sum_erase s g hj, hrest]
  exact add_right_comm _ _ _ |>.trans (by rw [add_comm (f j) (g j), add_right_comm])

variable {α M : Type} [AddCommMonoid M] {s s' : ChSub α} {g g' : ChGroup α} {b i j : ℕ}

/-- A sum over the groups of a sub table. -/
def total (F : ChGroup α → M) (s : ChSub α) : M := ∑ b ∈ range chH2Size, F (s.ceTable b)

theorem total_setGroup (F : ChGroup α → M) (hb : b < chH2Size) :
    total F (s.setGroup b g) + F (s.ceTable b) = total F s + F g := by
  have h := sum_change (f := fun k => F ((s.setGroup b g).ceTable k))
    (g := fun k => F (s.ceTable k)) (mem_range.2 hb) fun k _ hne => by
      simp [ChSub.setGroup, Function.update_of_ne hne]
  simpa [total, ChSub.setGroup] using h

theorem total_congr {F : ChGroup α → M}
    (h : ∀ b < chH2Size, F (s.ceTable b) = F (s'.ceTable b)) : total F s = total F s' :=
  sum_congr rfl fun b hb => h b (mem_range.1 hb)

/-! ## The slots of a group -/

/-- The number of slots in use. -/
def usedCount (cgMeta : BitVec 64) : ℕ := ∑ i ∈ range 7, if used cgMeta i then 1 else 0

/-- The number of tombstones. -/
def tombCount (cgMeta : BitVec 64) : ℕ := if everFull cgMeta then 7 - usedCount cgMeta else 0

/-- What a group adds to the load. -/
def weight (cgMeta : BitVec 64) : ℕ := if everFull cgMeta then 7 else usedCount cgMeta

/-- The element in a slot. -/
def slotElm (g : ChGroup α) (i : ℕ) : Multiset α :=
  if used g.cgMeta i then (g.cgData i).elim 0 fun x => {x} else 0

/-- The elements of a group. -/
def ChGroup.contents (g : ChGroup α) : Multiset α := ∑ i ∈ range 7, slotElm g i

/-- The elements of a sub table. -/
def ChSub.contents (s : ChSub α) : Multiset α := total ChGroup.contents s

/-- Slots in use have an element. -/
def ChGroup.DataOk (g : ChGroup α) : Prop := ∀ i < 7, used g.cgMeta i = true → (g.cgData i).isSome

theorem usedCount_le (m : BitVec 64) : usedCount m ≤ 7 := by
  have h : usedCount m ≤ ∑ i ∈ range 7, 1 := by
    apply sum_le_sum
    intro i _
    split <;> omega
  simpa using h

theorem usedCount_add_tombCount (m : BitVec 64) : usedCount m + tombCount m = weight m := by
  have hle := usedCount_le m
  unfold tombCount weight
  split <;> omega

/-- A group that has less than its weight could hold. -/
theorem free_of_weight {m : BitVec 64} (h : weight m < 7) :
    everFull m = false ∧ ∃ i < 7, used m i = false := by
  have hfull : everFull m = false := by
    by_contra hne
    rw [weight, if_pos (by simpa using hne)] at h
    omega
  refine ⟨hfull, ?_⟩
  by_contra hall
  push Not at hall
  rw [weight, if_neg (by simp [hfull])] at h
  have hcount : usedCount m = ∑ i ∈ range 7, 1 := by
    apply sum_congr rfl
    intro i hi
    rw [if_pos (by simpa using hall i (mem_range.1 hi))]
  rw [hcount] at h
  simp at h

theorem usedCount_eq {m : BitVec 64} (h : ∀ i < 7, used m i = true) : usedCount m = 7 := by
  have hcount : usedCount m = ∑ i ∈ range 7, 1 := by
    apply sum_congr rfl
    intro i hi
    rw [if_pos (h i (mem_range.1 hi))]
  simpa using hcount

theorem slotElm_of_used {x : α} (hused : used g.cgMeta i = true) (hdata : g.cgData i = some x) :
    slotElm g i = {x} := by
  simp [slotElm, hused, hdata]

theorem slotElm_of_free (hfree : used g.cgMeta i = false) : slotElm g i = 0 := by
  simp [slotElm, hfree]

theorem mem_slotElm {x : α} : x ∈ slotElm g i ↔ used g.cgMeta i = true ∧ g.cgData i = some x := by
  unfold slotElm
  by_cases hused : used g.cgMeta i = true
  · rw [if_pos hused]
    cases hdata : g.cgData i with
    | none => simp
    | some y => simp [hused, eq_comm]
  · simp [hused]

theorem mem_contents {x : α} :
    x ∈ s.contents ↔ ∃ b < chH2Size, ∃ i < 7, used (s.ceTable b).cgMeta i = true ∧
      (s.ceTable b).cgData i = some x := by
  simp only [ChSub.contents, total, ChGroup.contents, Multiset.mem_sum, mem_slotElm, mem_range]

theorem card_contents (hdata : g.DataOk) : Multiset.card g.contents = usedCount g.cgMeta := by
  rw [ChGroup.contents, Multiset.card_sum]
  apply sum_congr rfl
  intro i hi
  by_cases hused : used g.cgMeta i = true
  · obtain ⟨x, hx⟩ := Option.isSome_iff_exists.1 (hdata i (mem_range.1 hi) hused)
    rw [slotElm_of_used hused hx, if_pos hused, Multiset.card_singleton]
  · rw [slotElm_of_free (by simpa using hused), if_neg hused, Multiset.card_zero]

/-! ## Changes of a slot -/

theorem getLsbD_low (h : BitVec 64) : ∀ k, 8 ≤ k → (h &&& 0xff).getLsbD k = false := by
  intro k hk
  have hff : (0xff : BitVec 64).getLsbD k = false := by
    by_cases hlt : k < 64
    · revert k
      decide
    · exact BitVec.getLsbD_of_ge _ _ (by omega)
  rw [BitVec.getLsbD_and, hff, Bool.and_false]

theorem setWidth_low (h : BitVec 64) : (h &&& 0xff).setWidth 8 = h.setWidth 8 := by
  apply BitVec.eq_of_getLsbD_eq
  intro k hk
  have hff : ∀ k < 8, (0xff : BitVec 64).getLsbD k = true := by decide
  rw [BitVec.getLsbD_setWidth, BitVec.getLsbD_setWidth, BitVec.getLsbD_and, hff k hk, Bool.and_true]

variable {h : BitVec 64} {x : α}

theorem used_put (hi : i < 7) (hj : j < 8) :
    used (g.put i h x).cgMeta j = (used g.cgMeta j || decide (j = i)) := by
  rw [ChGroup.put, used_setFlags _ hj, used_setHash (getLsbD_low h) hi hj,
    getLsbD_one_shiftLeft (by omega)]

theorem used_clear (hi : i < 7) (hj : j < 8) :
    used (g.clear i).cgMeta j = (used g.cgMeta j && !decide (j = i)) := by
  rw [ChGroup.clear, used_clearFlags _ hj, used_setHash (by simp) hi hj,
    getLsbD_one_shiftLeft (by omega)]

theorem everFull_put (hi : i < 7) : everFull (g.put i h x).cgMeta = everFull g.cgMeta := by
  rw [everFull_eq_used, used_put hi (by omega), decide_eq_false (by omega), Bool.or_false,
    everFull_eq_used]

theorem everFull_clear (hi : i < 7) : everFull (g.clear i).cgMeta = everFull g.cgMeta := by
  rw [everFull_eq_used, used_clear hi (by omega), decide_eq_false (by omega), Bool.not_false,
    Bool.and_true, everFull_eq_used]

theorem hashByte_put (hi : i < 7) (hj : j < 7) :
    hashByte (g.put i h x).cgMeta j = if j = i then h.setWidth 8 else hashByte g.cgMeta j := by
  rw [ChGroup.put, hashByte_setFlags _ hj, hashByte_setHash (getLsbD_low h) hi hj, setWidth_low]

theorem hashByte_clear (hi : i < 7) (hj : j < 7) (hne : j ≠ i) :
    hashByte (g.clear i).cgMeta j = hashByte g.cgMeta j := by
  rw [ChGroup.clear, hashByte_clearFlags _ hj, hashByte_setHash (by simp) hi hj, if_neg hne]

theorem cgData_put : (g.put i h x).cgData j = if j = i then some x else g.cgData j := by
  simp [ChGroup.put, Function.update_apply]

theorem cgData_clear (hne : j ≠ i) : (g.clear i).cgData j = g.cgData j := by
  simp [ChGroup.clear, Function.update_of_ne hne]

theorem usedCount_put (hi : i < 7) (hfree : used g.cgMeta i = false) :
    usedCount (g.put i h x).cgMeta = usedCount g.cgMeta + 1 := by
  have hsum := sum_change (f := fun k => if used (g.put i h x).cgMeta k then 1 else 0)
    (g := fun k => if used g.cgMeta k then 1 else 0) (mem_range.2 hi) fun k hk hne => by
      have hlt := mem_range.1 hk
      rw [used_put hi (by omega), decide_eq_false hne, Bool.or_false]
  rw [used_put hi (by omega), hfree] at hsum
  simpa [usedCount] using hsum

theorem usedCount_clear (hi : i < 7) (hused : used g.cgMeta i = true) :
    usedCount (g.clear i).cgMeta + 1 = usedCount g.cgMeta := by
  have hsum := sum_change (f := fun k => if used (g.clear i).cgMeta k then 1 else 0)
    (g := fun k => if used g.cgMeta k then 1 else 0) (mem_range.2 hi) fun k hk hne => by
      have hlt := mem_range.1 hk
      rw [used_clear hi (by omega), decide_eq_false hne, Bool.not_false, Bool.and_true]
  rw [used_clear hi (by omega), hused] at hsum
  simpa [usedCount] using hsum

theorem contents_put (hi : i < 7) (hfree : used g.cgMeta i = false) :
    (g.put i h x).contents = x ::ₘ g.contents := by
  have hsum := sum_change (f := slotElm (g.put i h x)) (g := slotElm g) (mem_range.2 hi)
    fun k hk hne => by
      have hlt := mem_range.1 hk
      rw [slotElm, slotElm, used_put hi (by omega), decide_eq_false hne, Bool.or_false, cgData_put,
        if_neg hne]
  have hnew : slotElm (g.put i h x) i = {x} := by
    apply slotElm_of_used
    · rw [used_put hi (by omega), decide_eq_true rfl, Bool.or_true]
    · rw [cgData_put, if_pos rfl]
  rw [slotElm_of_free hfree, add_zero, hnew] at hsum
  rw [ChGroup.contents, hsum, ← Multiset.singleton_add, add_comm]
  rfl

theorem contents_clear (hi : i < 7) (hused : used g.cgMeta i = true)
    (hdata : g.cgData i = some x) : x ::ₘ (g.clear i).contents = g.contents := by
  have hsum := sum_change (f := slotElm (g.clear i)) (g := slotElm g) (mem_range.2 hi)
    fun k hk hne => by
      have hlt := mem_range.1 hk
      rw [slotElm, slotElm, used_clear hi (by omega), decide_eq_false hne, Bool.not_false,
        Bool.and_true, cgData_clear hne]
  have hold : slotElm (g.clear i) i = 0 := by
    apply slotElm_of_free
    rw [used_clear hi (by omega), decide_eq_true rfl, Bool.not_true, Bool.and_false]
  rw [slotElm_of_used hused hdata, hold, add_zero] at hsum
  rw [← Multiset.singleton_add, add_comm]
  exact hsum

/-! ## The numbers of a sub table -/

/-- `cs_num_elm` and `cs_num_tomb` are the numbers of slots in use and of tombstones, and every
    slot in use has an element. -/
structure Sound (s : ChSub α) : Prop where
  data : ∀ b < chH2Size, (s.ceTable b).DataOk
  numElm : s.csNumElm = total (fun g => usedCount g.cgMeta) s
  numTomb : s.csNumTomb = total (fun g => tombCount g.cgMeta) s

theorem Sound.load (hs : Sound s) : s.csNumElm + s.csNumTomb = total
    (fun g => weight g.cgMeta) s := by
  rw [hs.numElm, hs.numTomb, total, total, ← sum_add_distrib]
  exact sum_congr rfl fun b _ => usedCount_add_tombCount _

theorem Sound.card (hs : Sound s) : Multiset.card s.contents = s.csNumElm := by
  rw [hs.numElm, ChSub.contents, total, Multiset.card_sum]
  exact sum_congr rfl fun b hb => card_contents (hs.data b (mem_range.1 hb))

/-- Below the capacity there is a group that was never full, and it has a free slot. -/
theorem Sound.exists_open (hs : Sound s) (hload : s.csNumElm + s.csNumTomb < chH2Size * 7) :
    ∃ b < chH2Size, everFull (s.ceTable b).cgMeta = false ∧
      ∃ i < 7, used (s.ceTable b).cgMeta i = false := by
  rw [hs.load] at hload
  have hlt : ∑ b ∈ range chH2Size, weight (s.ceTable b).cgMeta < ∑ b ∈ range chH2Size, 7 := by
    simpa [total] using hload
  obtain ⟨b, hb, hweight⟩ := exists_lt_of_sum_lt hlt
  obtain ⟨hfull, hfree⟩ := free_of_weight hweight
  exact ⟨b, mem_range.1 hb, hfull, hfree⟩

theorem sound_alloc (level : ℕ) : Sound (chSubAlloc level : ChSub α) := by
  have hused : ∀ i < 8, used 0 i = false := by decide
  refine ⟨?_, ?_, ?_⟩
  · intro b _ i hi h
    rw [show ((chSubAlloc level).ceTable b : ChGroup α).cgMeta =
      0 from rfl, hused i (by omega)] at h
    cases h
  · have hzero : usedCount 0 = 0 := by decide
    exact (sum_eq_zero fun b _ => hzero).symm
  · have hzero : tombCount 0 = 0 := by decide
    exact (sum_eq_zero fun b _ => hzero).symm

theorem contents_alloc (level : ℕ) : (chSubAlloc level : ChSub α).contents = 0 := by
  have hused : ∀ i < 7, used 0 i = false := by decide
  rw [ChSub.contents, total]
  refine sum_eq_zero fun b _ => ?_
  rw [ChGroup.contents]
  refine sum_eq_zero fun i hi => ?_
  exact slotElm_of_free (hused i (mem_range.1 hi))

theorem contents_setGroup (hb : b < chH2Size) :
    (s.setGroup b g).contents + (s.ceTable b).contents = s.contents + g.contents :=
  total_setGroup ChGroup.contents hb

theorem contents_congr
    (h : ∀ b < chH2Size, (s.ceTable b).contents = (s'.ceTable b).contents) :
    s.contents = s'.contents :=
  total_congr h

theorem contents_eq_sum (s : ChSub α) :
    s.contents = ∑ b ∈ range chH2Size, (s.ceTable b).contents := rfl

-- the sum has 512 terms: it is used through the lemmas only
attribute [irreducible] ChSub.contents

end Bgpd.Chash
