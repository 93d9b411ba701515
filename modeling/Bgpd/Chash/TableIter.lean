import Bgpd.Chash.TableSet
import Mathlib.Algebra.BigOperators.Intervals

/-!
# Iteration over the Hash Table

`CH_FOREACH` goes through the entries of the extendible table, and in each sub table through the
groups and their slots. `_ch_first` and `_ch_next` take a sub table without elements for the end of
the table. So the iteration visits the elements of the sub tables that stand before the first empty
one, each once, and it visits all elements only where nothing stands behind an empty sub table.

## Main results

- `foreach_complete_iff`: when the iteration visits every element
- `foreach_misses_all`: a table with elements of which none is visited
-/

namespace Bgpd.Chash

open Bgpd.Lib Finset

variable {α : Type} {T : ChType α} {t : ChTable α} {e : ℕ → ℕ} {s : ChSub α} {g : ChGroup α}
  {it : ChIter} {i j k m n : ℕ} {x : α}

/-! ## Iteration in a sub table -/

/-- The elements of a group from slot `k` on. -/
def groupAfter (g : ChGroup α) (k : ℕ) : Multiset α :=
  ∑ i ∈ range 7, if k ≤ i then slotElm g i else 0

/-- The elements of a sub table from slot `k` of group `n` on. -/
def subAfter (s : ChSub α) (n k : ℕ) : Multiset α :=
  groupAfter (s.ceTable n) k + ∑ b ∈ Ico (n + 1) chH2Size, (s.ceTable b).contents

theorem groupAfter_zero (g : ChGroup α) : groupAfter g 0 = g.contents :=
  sum_congr rfl fun i _ => if_pos (Nat.zero_le i)

/-- The slots before `i` are free. -/
theorem groupAfter_step (hki : k ≤ i) (hi : i < 7)
    (hfree : ∀ j, k ≤ j → j < i → used g.cgMeta j = false) :
    groupAfter g k = slotElm g i + groupAfter g (i + 1) := by
  have hsum := sum_change (f := fun j => if k ≤ j then slotElm g j else 0)
    (g := fun j => if i + 1 ≤ j then slotElm g j else 0) (mem_range.2 hi) fun j _ hne => by
      rcases Nat.lt_or_gt_of_ne hne with hlt | hgt
      · rw [if_neg (show ¬ i + 1 ≤ j by omega)]
        split_ifs with hkj
        · exact slotElm_of_free (hfree j hkj hlt)
        · rfl
      · rw [if_pos (show k ≤ j by omega), if_pos (show i + 1 ≤ j by omega)]
  rw [if_pos hki, if_neg (by omega), add_zero] at hsum
  rw [add_comm]
  exact hsum

theorem groupAfter_none (hfree : ∀ j, k ≤ j → j < 7 → used g.cgMeta j = false) :
    groupAfter g k = 0 := by
  apply sum_eq_zero
  intro j hj
  split_ifs with hkj
  · exact slotElm_of_free (hfree j hkj (mem_range.1 hj))
  · rfl

theorem subAfter_next (hn : n + 1 < chH2Size) (hnone : groupAfter (s.ceTable n) k = 0) :
    subAfter s n k = subAfter s (n + 1) 0 := by
  rw [subAfter, subAfter, hnone, zero_add, groupAfter_zero]
  exact sum_eq_sum_Ico_succ_bot hn fun b => (s.ceTable b).contents

theorem subAfter_last (hn : chH2Size ≤ n + 1) (hnone : groupAfter (s.ceTable n) k = 0) :
    subAfter s n k = 0 := by
  rw [subAfter, hnone, zero_add, Ico_eq_empty (by omega), sum_empty]

theorem subAfter_start (s : ChSub α) : subAfter s 0 0 = s.contents := by
  have hpos : 0 < chH2Size := by decide
  rw [contents_eq_sum, subAfter, groupAfter_zero, range_eq_Ico]
  exact (sum_eq_sum_Ico_succ_bot hpos fun b => (s.ceTable b).contents).symm

/-- The slots of the mask from `k` on. -/
theorem ffs_after : ∀ f : BitVec 8, ∀ k < 8,
    ((f &&& chSlotMask) &&& (chSlotMask <<< k) = 0 → ∀ i < 7, k ≤ i → f.getLsbD i = false) ∧
    ((f &&& chSlotMask) &&& (chSlotMask <<< k) ≠ 0 →
      ∃ i < 7, ffs ((f &&& chSlotMask) &&& (chSlotMask <<< k)) = i + 1 ∧ k ≤ i ∧
        f.getLsbD i = true ∧ ∀ j < i, k ≤ j → f.getLsbD j = false) := by
  decide +kernel

/-- What one step in a sub table finds, from slot `k` of group `n` on. -/
structure SubStep (s : ChSub α) (it : ChIter) (rest : Multiset α) (it' : ChIter) (v : Option α) :
    Prop where
  ext : it'.ciExtIdx = it.ciExtIdx
  none : v = none → rest = 0
  some : ∀ x, v = some x → it'.ciSetIdx < chH2Size ∧ it'.ciGrpIdx < 8 ∧
    rest = x ::ₘ subAfter s it'.ciSetIdx it'.ciGrpIdx

/-- The iterator stops at the first slot in use. -/
theorem iterAt_step (hs : Sound s) (hn : n < chH2Size) (hk : k < 8)
    (hne : (cgMetaGetFlags (s.ceTable n).cgMeta &&& chSlotMask) &&& (chSlotMask <<< k) ≠ 0) :
    SubStep s it (subAfter s n k)
      (iterAt s it n ((cgMetaGetFlags (s.ceTable n).cgMeta &&& chSlotMask) &&&
        (chSlotMask <<< k))).1
      (iterAt s it n ((cgMetaGetFlags (s.ceTable n).cgMeta &&& chSlotMask) &&&
        (chSlotMask <<< k))).2 := by
  have hflag : ∀ i < 7, (cgMetaGetFlags (s.ceTable n).cgMeta).getLsbD i =
      used (s.ceTable n).cgMeta i := fun i hi => getLsbD_getFlags (by omega)
  obtain ⟨i, hi, hffs, hki, hbit, hbefore⟩ :=
    (ffs_after (cgMetaGetFlags (s.ceTable n).cgMeta) k hk).2 hne
  rw [hflag i hi] at hbit
  obtain ⟨x, hx⟩ := Option.isSome_iff_exists.1 (hs.data n hn i hi hbit)
  have hstep := groupAfter_step (g := s.ceTable n) hki hi fun j hkj hji => by
    rw [← hflag j (by omega)]
    exact hbefore j hji hkj
  rw [iterAt, hffs, Nat.add_sub_cancel, hx]
  refine ⟨rfl, by simp, fun y hy => ?_⟩
  rw [Option.some.injEq] at hy
  subst hy
  refine ⟨hn, by simp only; omega, ?_⟩
  rw [subAfter, hstep, slotElm_of_used hbit hx, add_assoc, Multiset.singleton_add]
  rfl

theorem after_none (hk : k < 8)
    (hzero : (cgMetaGetFlags (s.ceTable n).cgMeta &&& chSlotMask) &&& (chSlotMask <<< k) = 0) :
    groupAfter (s.ceTable n) k = 0 := by
  apply groupAfter_none
  intro j hkj hj
  have hbit := (ffs_after (cgMetaGetFlags (s.ceTable n).cgMeta) k hk).1 hzero j hj hkj
  rwa [getLsbD_getFlags (by omega)] at hbit

/-- The loop goes to the first used slot from the iterator's slot of group `n` on. -/
theorem nextLoop_step (hs : Sound s) (fuel : ℕ) :
    ∀ (n : ℕ) (it : ChIter), n + (fuel + 1) = chH2Size → it.ciGrpIdx < 8 →
      SubStep s it (subAfter s n it.ciGrpIdx) (nextLoop s (fuel + 1) n it).1
        (nextLoop s (fuel + 1) n it).2 := by
  induction fuel with
  | zero =>
    intro n it hn hk
    rw [nextLoop]
    split_ifs with hzero
    · rw [nextLoop]
      exact ⟨rfl, fun _ => subAfter_last (by omega) (after_none hk hzero), by simp⟩
    · exact iterAt_step hs (by omega) hk hzero
  | succ fuel ih =>
    intro n it hn hk
    rw [nextLoop]
    split_ifs with hzero
    · rw [subAfter_next (by omega) (after_none hk hzero)]
      have hrest := ih (n + 1) { it with ciGrpIdx := 0 } (by omega) (by simp)
      exact ⟨hrest.ext, hrest.none, hrest.some⟩
    · exact iterAt_step hs (by omega) hk hzero

/-- `ch_sub_next` -/
theorem chSubNext_step (hs : Sound s) (hset : it.ciSetIdx < chH2Size) (hgrp : it.ciGrpIdx < 8) :
    SubStep s it (subAfter s it.ciSetIdx it.ciGrpIdx) (chSubNext s it).1 (chSubNext s it).2 := by
  have hfuel : chH2Size - it.ciSetIdx = chH2Size - it.ciSetIdx - 1 + 1 := by omega
  rw [chSubNext, hfuel]
  exact nextLoop_step hs _ _ it (by omega) hgrp

/-- The loop goes to the first used slot from group `n` on. -/
theorem firstLoop_step (hs : Sound s) (fuel : ℕ) :
    ∀ (n : ℕ), n + (fuel + 1) = chH2Size →
      SubStep s it (subAfter s n 0) (firstLoop s (fuel + 1) n it).1
        (firstLoop s (fuel + 1) n it).2 := by
  have hmask : ∀ f : BitVec 8, (f &&& chSlotMask) &&& (chSlotMask <<< 0) = f &&& chSlotMask := by
    intro f
    rw [BitVec.shiftLeft_zero, BitVec.and_assoc, BitVec.and_self]
  induction fuel with
  | zero =>
    intro n hn
    rw [firstLoop]
    split_ifs with hzero
    · rw [firstLoop]
      rw [← hmask] at hzero
      exact ⟨rfl, fun _ => subAfter_last (by omega) (after_none (by omega) hzero), by simp⟩
    · rw [← hmask] at hzero ⊢
      exact iterAt_step hs (by omega) (by omega) hzero
  | succ fuel ih =>
    intro n hn
    rw [firstLoop]
    split_ifs with hzero
    · rw [← hmask] at hzero
      rw [subAfter_next (by omega) (after_none (by omega) hzero)]
      exact ih (n + 1) (by omega)
    · rw [← hmask] at hzero ⊢
      exact iterAt_step hs (by omega) (by omega) hzero

/-- `ch_sub_first` -/
theorem chSubFirst_step (hs : Sound s) (it : ChIter) :
    SubStep s it s.contents (chSubFirst s it).1 (chSubFirst s it).2 := by
  rw [← subAfter_start, chSubFirst]
  exact firstLoop_step hs 511 0 (by decide)

/-! ## The next sub table -/

/-- The search goes to the first entry of another sub table. -/
theorem nextExt_spec (e : ℕ → ℕ) (id fuel : ℕ) : ∀ i,
    i ≤ nextExt e id fuel i ∧ nextExt e id fuel i ≤ i + fuel ∧
      (∀ j, i ≤ j → j < nextExt e id fuel i → e j = id) ∧
      (nextExt e id fuel i < i + fuel → e (nextExt e id fuel i) ≠ id) := by
  induction fuel with
  | zero =>
    intro i
    rw [nextExt]
    exact ⟨le_rfl, le_rfl, fun j hij hji => by omega, fun h => by omega⟩
  | succ fuel ih =>
    intro i
    rw [nextExt]
    split_ifs with hne
    · exact ⟨le_rfl, by omega, fun j hij hji => by omega, fun _ => hne⟩
    · obtain ⟨hle, hge, hsame, hstop⟩ := ih (i + 1)
      refine ⟨by omega, by omega, fun j hij hji => ?_, fun hlt => hstop (by omega)⟩
      rcases Nat.eq_or_lt_of_le hij with rfl | hlt
      · simpa using hne
      · exact hsame j (by omega) hji

/-- The first entry behind the block of `i`. -/
def blockEnd (t : ChTable α) (e : ℕ → ℕ) (i : ℕ) : ℕ :=
  nextExt e (e i) (2 ^ t.chLevel - (i + 1)) (i + 1)

/-- The sub tables from entry `i` to entry `m`. -/
def tailElms (t : ChTable α) (e : ℕ → ℕ) (i m : ℕ) : Multiset α :=
  ∑ id ∈ (Ico i m).image e, subElms t id

theorem blockEnd_spec (hi : i < 2 ^ t.chLevel) :
    i < blockEnd t e i ∧ blockEnd t e i ≤ 2 ^ t.chLevel ∧
      (∀ j, i ≤ j → j < blockEnd t e i → e j = e i) ∧
      (blockEnd t e i < 2 ^ t.chLevel → e (blockEnd t e i) ≠ e i) := by
  obtain ⟨hle, hge, hsame, hstop⟩ := nextExt_spec e (e i) (2 ^ t.chLevel - (i + 1)) (i + 1)
  have hend : i + 1 + (2 ^ t.chLevel - (i + 1)) = 2 ^ t.chLevel := by omega
  rw [hend] at hge hstop
  refine ⟨hle, hge, fun j hij hj => ?_, hstop⟩
  rcases Nat.eq_or_lt_of_le hij with rfl | hlt
  · rfl
  · exact hsame j hlt hj

/-- The entries behind the block have other sub tables. -/
theorem Good.ne_of_blockEnd_le (hg : Good T t e) (hi : i < 2 ^ t.chLevel)
    (hj : blockEnd t e i ≤ j) (hlt : j < 2 ^ t.chLevel) : e j ≠ e i := by
  obtain ⟨hafter, _, _, hstop⟩ := blockEnd_spec (t := t) (e := e) hi
  obtain ⟨s, _, hf⟩ := hg.live i hi
  have hne := hstop (by omega)
  rw [Ne, hf.block _ (by omega)] at hne
  rw [Ne, hf.block j hlt]
  have hfirst : i / 2 ^ (t.chLevel - s.csLocalLevel) ≤
      blockEnd t e i / 2 ^ (t.chLevel - s.csLocalLevel) := Nat.div_le_div_right hafter.le
  have hmono : blockEnd t e i / 2 ^ (t.chLevel - s.csLocalLevel) ≤
      j / 2 ^ (t.chLevel - s.csLocalLevel) := Nat.div_le_div_right hj
  omega

/-- The sub table of a block, and those behind it. -/
theorem Good.tail_step (hg : Good T t e) (hs : t.subs (e i) = some s)
    (hm : blockEnd t e i ≤ m) (hmax : m ≤ 2 ^ t.chLevel) (hi : i < 2 ^ t.chLevel) :
    tailElms t e i m = s.contents + tailElms t e (blockEnd t e i) m := by
  obtain ⟨hafter, _, hsame, _⟩ := blockEnd_spec (t := t) (e := e) hi
  have himage : (Ico i m).image e = insert (e i) ((Ico (blockEnd t e i) m).image e) := by
    ext id
    simp only [mem_image, mem_insert, mem_Ico]
    constructor
    · rintro ⟨j, hj, rfl⟩
      by_cases hblock : j < blockEnd t e i
      · exact .inl (hsame j hj.1 hblock)
      · exact .inr ⟨j, ⟨by omega, hj.2⟩, rfl⟩
    · rintro (rfl | ⟨j, hj, rfl⟩)
      · exact ⟨i, ⟨le_rfl, by omega⟩, rfl⟩
      · exact ⟨j, ⟨by omega, hj.2⟩, rfl⟩
  have hnew : e i ∉ (Ico (blockEnd t e i) m).image e := by
    intro hmem
    obtain ⟨j, hj, heq⟩ := mem_image.1 hmem
    rw [mem_Ico] at hj
    exact hg.ne_of_blockEnd_le hi hj.1 (by omega) heq
  rw [tailElms, himage, sum_insert hnew, subElms_of_some hs, tailElms]

theorem tail_nil (hm : m ≤ i) : tailElms t e i m = 0 := by
  rw [tailElms, Ico_eq_empty (by omega), image_empty, sum_empty]

/-! ## The iteration -/

/-- The calls of `_ch_next` from an iterator on, until one returns NULL. -/
inductive Walk (t : ChTable α) : ChIter → List α → Prop
  | done {it it' : ChIter} (hnext : chNext t it = .ok (it', none)) : Walk t it []
  | step {it it' : ChIter} {x : α} {l : List α} (hnext : chNext t it = .ok (it', some x))
      (hrest : Walk t it' l) : Walk t it (x :: l)

/-- `CH_FOREACH`, from any content of the iterator. -/
inductive Foreach (t : ChTable α) (it : ChIter) : List α → Prop
  | empty {it' : ChIter} (hfirst : chFirst t it = .ok (it', none)) : Foreach t it []
  | some {it' : ChIter} {x : α} {l : List α} (hfirst : chFirst t it = .ok (it', some x))
      (hrest : Walk t it' l) : Foreach t it (x :: l)

theorem Walk.unique {l l' : List α} (h : Walk t it l) (h' : Walk t it l') : l = l' := by
  induction h generalizing l' with
  | done hnext =>
    cases h' with
    | done _ => rfl
    | step hnext' _ =>
      rw [hnext] at hnext'
      cases hnext'
  | step hnext _ ih =>
    cases h' with
    | done hnext' =>
      rw [hnext] at hnext'
      cases hnext'
    | step hnext' hrest' =>
      rw [hnext] at hnext'
      cases hnext'
      rw [ih hrest']

theorem Foreach.unique {l l' : List α} (h : Foreach t it l) (h' : Foreach t it l') : l = l' := by
  cases h with
  | empty hfirst =>
    cases h' with
    | empty _ => rfl
    | some hfirst' _ =>
      rw [hfirst] at hfirst'
      cases hfirst'
  | some hfirst hrest =>
    cases h' with
    | empty hfirst' =>
      rw [hfirst] at hfirst'
      cases hfirst'
    | some hfirst' hrest' =>
      rw [hfirst] at hfirst'
      cases hfirst'
      rw [hrest.unique hrest']

/-- `m` is the first entry whose sub table has no elements. -/
structure FirstEmpty (t : ChTable α) (e : ℕ → ℕ) (m : ℕ) : Prop where
  le : m ≤ 2 ^ t.chLevel
  before : ∀ j < m, subElms t (e j) ≠ 0
  empty : m < 2 ^ t.chLevel → subElms t (e m) = 0

theorem exists_firstEmpty (t : ChTable α) (e : ℕ → ℕ) : ∃ m, FirstEmpty t e m := by
  classical
  have hex : ∃ m, m = 2 ^ t.chLevel ∨ subElms t (e m) = 0 := ⟨_, .inl rfl⟩
  have hle : Nat.find hex ≤ 2 ^ t.chLevel := Nat.find_min' hex (.inl rfl)
  refine ⟨Nat.find hex, hle, fun j hj => ?_, fun hlt => ?_⟩
  · exact fun h => Nat.find_min hex hj (.inr h)
  · exact (Nat.find_spec hex).resolve_left (by omega)

/-- No entry of a block that has elements is the first empty one. -/
theorem FirstEmpty.blockEnd_le (hm : FirstEmpty t e m) (hi : i < m) : blockEnd t e i ≤ m := by
  have hle := hm.le
  obtain ⟨_, hend, hsame, _⟩ := blockEnd_spec (t := t) (e := e) (i := i) (by omega)
  by_contra hlt
  have hempty := hm.empty (by omega)
  rw [hsame m (by omega) (by omega)] at hempty
  exact hm.before i hi hempty

variable (it) in
theorem Good.chFirst_eq (hg : Good T t e) (hs : t.subs (e 0) = some s) :
    chFirst t it = .ok (chSubFirst s { it with ciExtIdx := 0 }) := by
  have hread : extAt t t.exts 0 = .ok (e 0, s) := by
    rw [extAt, if_neg (by have := Nat.two_pow_pos t.chLevel; omega), hg.exts_eq, hs]
  rw [chFirst, hg.exts, Option.isNone_some, if_neg (by simp), hread]
  rfl

/-- `_ch_next` inside a sub table. -/
theorem Good.chNext_some {it' : ChIter} (hg : Good T t e) (hi : it.ciExtIdx < 2 ^ t.chLevel)
    (hs : t.subs (e it.ciExtIdx) = some s) (hv : chSubNext s it = (it', some x)) :
    chNext t it = .ok (it', some x) := by
  have hread : extAt t t.exts it.ciExtIdx = .ok (e it.ciExtIdx, s) := by
    rw [extAt, if_neg (by omega), hg.exts_eq, hs]
  rw [chNext, hg.exts, Option.isNone_some, if_neg (by simp), if_neg (by omega), hread]
  simp only [bind, Except.bind, hv]
  rfl

/-- `_ch_next` at the end of a sub table. -/
theorem Good.chNext_none {it' : ChIter} (hg : Good T t e) (hi : it.ciExtIdx < 2 ^ t.chLevel)
    (hs : t.subs (e it.ciExtIdx) = some s) (hv : chSubNext s it = (it', none))
    (hext : it'.ciExtIdx = it.ciExtIdx) :
    (2 ^ t.chLevel ≤ blockEnd t e it.ciExtIdx → chNext t it = .ok (it', none)) ∧
    (∀ s', blockEnd t e it.ciExtIdx < 2 ^ t.chLevel →
      t.subs (e (blockEnd t e it.ciExtIdx)) = some s' →
      chNext t it = .ok (chSubFirst s' { it' with ciExtIdx := blockEnd t e it.ciExtIdx })) := by
  have hread : extAt t t.exts it.ciExtIdx = .ok (e it.ciExtIdx, s) := by
    rw [extAt, if_neg (by omega), hg.exts_eq, hs]
  have hblock : nextExt t.exts (e it.ciExtIdx) (2 ^ t.chLevel - (it'.ciExtIdx + 1))
      (it'.ciExtIdx + 1) = blockEnd t e it.ciExtIdx := by
    rw [hext, hg.exts_eq, blockEnd]
  constructor
  · intro hend
    rw [chNext, hg.exts, Option.isNone_some, if_neg (by simp), if_neg (by omega), hread]
    simp only [bind, Except.bind, hv, hblock, if_pos hend]
    rfl
  · intro s' hend hs'
    have hread' : extAt t t.exts (blockEnd t e it.ciExtIdx) =
        .ok (e (blockEnd t e it.ciExtIdx), s') := by
      rw [extAt, if_neg (by omega), hg.exts_eq, hs']
    have hin : ¬ 2 ^ t.chLevel ≤ blockEnd t e it.ciExtIdx := by omega
    rw [chNext, hg.exts, Option.isNone_some, if_neg (by simp), if_neg (by omega), hread]
    simp only [bind, Except.bind, hv, hblock, if_neg hin, hread']
    rfl

/-- The calls of `_ch_next` visit what is left of the sub table, and the sub tables behind it up to
    the first empty one. The induction is on the number of elements that are left. -/
theorem Good.walk (hg : Good T t e) (hm : FirstEmpty t e m) (count : ℕ) :
    ∀ (it : ChIter) (s : ChSub α), it.ciExtIdx < m → t.subs (e it.ciExtIdx) = some s →
      it.ciSetIdx < chH2Size → it.ciGrpIdx < 8 →
      Multiset.card (subAfter s it.ciSetIdx it.ciGrpIdx +
        tailElms t e (blockEnd t e it.ciExtIdx) m) = count →
      ∃ l, Walk t it l ∧ (l : Multiset α) =
        subAfter s it.ciSetIdx it.ciGrpIdx + tailElms t e (blockEnd t e it.ciExtIdx) m := by
  have hmax := hm.le
  induction count using Nat.strongRecOn with
  | ind count ih =>
    intro it s him hs hset hgrp hcount
    have hi : it.ciExtIdx < 2 ^ t.chLevel := by omega
    obtain ⟨s₀, hs₀, hf⟩ := hg.live _ hi
    have hsame : s₀ = s := Option.some.inj (hs₀.symm.trans hs)
    subst hsame
    have hstep := chSubNext_step hf.sound hset hgrp
    rcases hv : chSubNext s₀ it with ⟨it', v⟩
    rw [hv] at hstep
    have hext := hstep.ext
    dsimp only at hext
    cases v with
    | some x =>
      -- the next element is in the same sub table
      obtain ⟨hset', hgrp', hrest⟩ := hstep.some x rfl
      dsimp only at hset' hgrp' hrest
      rw [hrest, Multiset.cons_add, Multiset.card_cons, ← hext] at hcount
      obtain ⟨l, hwalk, hl⟩ :=
        ih _ (by omega) it' s₀ (by omega) (by rw [hext]; exact hs) hset' hgrp'
        rfl
      refine ⟨x :: l, .step (hg.chNext_some hi hs hv) hwalk, ?_⟩
      rw [hrest, ← Multiset.cons_coe, hl, hext, Multiset.cons_add]
    | none =>
      have hzero := hstep.none rfl
      obtain ⟨hover, hgo⟩ := hg.chNext_none hi hs hv hext
      have hle := hm.blockEnd_le him
      rw [hzero, zero_add] at hcount ⊢
      by_cases hend : 2 ^ t.chLevel ≤ blockEnd t e it.ciExtIdx
      -- the last entry was reached
      · refine ⟨[], .done (hover hend), ?_⟩
        rw [tail_nil (by omega)]
        rfl
      · push Not at hend
        obtain ⟨s', hs', hf'⟩ := hg.live _ hend
        have hnext := hgo s' hend hs'
        have hfirst := chSubFirst_step hf'.sound
          { it' with ciExtIdx := blockEnd t e it.ciExtIdx }
        rcases hw : chSubFirst s' { it' with ciExtIdx := blockEnd t e it.ciExtIdx } with ⟨it'', w⟩
        rw [hw] at hfirst hnext
        cases w with
        -- the walk ends at the first empty sub table
        | none =>
          have hempty := hfirst.none rfl
          have hlast : m ≤ blockEnd t e it.ciExtIdx := by
            by_contra hlt
            refine hm.before (blockEnd t e it.ciExtIdx) (by omega) ?_
            rw [subElms_of_some hs', hempty]
          refine ⟨[], .done hnext, ?_⟩
          rw [tail_nil hlast]
          rfl
        | some x =>
          -- the walk goes on with the first element of the next sub table
          obtain ⟨hset', hgrp', hrest⟩ := hfirst.some x rfl
          have hext' := hfirst.ext
          dsimp only at hset' hgrp' hrest hext'
          have hlt : blockEnd t e it.ciExtIdx < m := by
            by_contra hge
            have heq : m = blockEnd t e it.ciExtIdx := by omega
            have hempty := hm.empty (by omega)
            rw [heq, subElms_of_some hs', hrest] at hempty
            exact Multiset.cons_ne_zero hempty
          have htail : tailElms t e (blockEnd t e it.ciExtIdx) m =
              x ::ₘ (subAfter s' it''.ciSetIdx it''.ciGrpIdx +
                tailElms t e (blockEnd t e it''.ciExtIdx) m) := by
            rw [hg.tail_step hs' (hm.blockEnd_le hlt) hmax hend, hrest, Multiset.cons_add, hext']
          rw [htail, Multiset.card_cons] at hcount
          -- one element less is left
          obtain ⟨l, hwalk, hl⟩ := ih _ (by omega) it'' s' (by omega) (by rw [hext']; exact hs')
            hset' hgrp' rfl
          refine ⟨x :: l, .step hnext hwalk, ?_⟩
          rw [htail, ← Multiset.cons_coe, hl]

/-- The iteration visits the sub tables before the first empty one. -/
theorem Good.foreach (hg : Good T t e) (hm : FirstEmpty t e m) (it : ChIter) :
    ∃ l, Foreach t it l ∧ (l : Multiset α) = tailElms t e 0 m := by
  have hpos := Nat.two_pow_pos t.chLevel
  have hmax := hm.le
  obtain ⟨s, hs, hf⟩ := hg.live 0 hpos
  have hfirst := hg.chFirst_eq it hs
  have hstep := chSubFirst_step hf.sound { it with ciExtIdx := 0 }
  rcases hv : chSubFirst s { it with ciExtIdx := 0 } with ⟨it', v⟩
  rw [hv] at hfirst hstep
  cases v with
  | none =>
    have hempty := hstep.none rfl
    have hzero : m = 0 := by
      by_contra hne
      refine hm.before 0 (by omega) ?_
      rw [subElms_of_some hs, hempty]
    refine ⟨[], .empty hfirst, ?_⟩
    rw [tail_nil (by omega)]
    rfl
  | some x =>
    obtain ⟨hset, hgrp, hrest⟩ := hstep.some x rfl
    have hext := hstep.ext
    dsimp only at hset hgrp hrest hext
    have hlt : 0 < m := by
      by_contra hge
      have hempty := hm.empty (by omega)
      rw [show m = 0 by omega, subElms_of_some hs, hrest] at hempty
      exact Multiset.cons_ne_zero hempty
    obtain ⟨l, hwalk, hl⟩ := hg.walk hm _ it' s (by omega) (by rw [hext]; exact hs) hset hgrp rfl
    refine ⟨x :: l, .some hfirst hwalk, ?_⟩
    rw [hg.tail_step hs (hm.blockEnd_le hlt) hmax hpos, hrest, ← Multiset.cons_coe, hl, hext,
      Multiset.cons_add]

/-! ## What is missed -/

/-- No sub table with elements stands behind one without. -/
def NothingBehindEmpty (t : ChTable α) : Prop :=
  ∀ e, t.chExts = some e → ∀ i j, i < j → j < 2 ^ t.chLevel →
    ∀ s s', t.subs (e i) = some s → t.subs (e j) = some s' → s.csNumElm = 0 → s'.csNumElm = 0

theorem Sound.numElm_eq_zero (hs : Sound s) : s.csNumElm = 0 ↔ s.contents = 0 := by
  rw [← hs.card, Multiset.card_eq_zero]

/-- The entries of one sub table are not interrupted. -/
theorem Good.between (hg : Good T t e) (hik : i ≤ k) (hkj : k ≤ j) (hj : j < 2 ^ t.chLevel)
    (heq : e j = e i) : e k = e i := by
  obtain ⟨s, _, hf⟩ := hg.live i (by omega)
  rw [hf.block j hj] at heq
  rw [hf.block k (by omega)]
  have hfirst : i / 2 ^ (t.chLevel - s.csLocalLevel) ≤ k / 2 ^ (t.chLevel - s.csLocalLevel) :=
    Nat.div_le_div_right hik
  have hlast : k / 2 ^ (t.chLevel - s.csLocalLevel) ≤ j / 2 ^ (t.chLevel - s.csLocalLevel) :=
    Nat.div_le_div_right hkj
  omega

theorem Good.contents_eq_tail (hg : Good T t e) : t.contents = tailElms t e 0 (2 ^ t.chLevel) := by
  rw [hg.contents_eq, tailElms, ids, range_eq_Ico]

theorem image_subset (hm : m ≤ 2 ^ t.chLevel) :
    (Ico 0 m).image e ⊆ (Ico 0 (2 ^ t.chLevel)).image e :=
  image_subset_image (Ico_subset_Ico_right hm)

theorem Good.tail_le (hg : Good T t e) (hm : FirstEmpty t e m) :
    tailElms t e 0 m ≤ t.contents := by
  rw [hg.contents_eq_tail]
  exact sum_le_sum_of_subset (image_subset hm.le)

/-- A sub table with elements behind the first empty one is missed. -/
theorem Good.tail_eq_iff (hg : Good T t e) (hm : FirstEmpty t e m) :
    tailElms t e 0 m = t.contents ↔ NothingBehindEmpty t := by
  constructor
  · intro hall e' he i j hij hj s s' hs hs' hzero
    -- the sub table at `m` is empty, so all behind it are
    rw [hg.exts, Option.some.injEq] at he
    subst he
    obtain ⟨s₁, hs₁, hf⟩ := hg.live i (by omega)
    obtain ⟨s₂, hs₂, hf'⟩ := hg.live j hj
    have hsame : s₁ = s := Option.some.inj (hs₁.symm.trans hs)
    have hsame' : s₂ = s' := Option.some.inj (hs₂.symm.trans hs')
    subst hsame hsame'
    -- the first empty sub table is not behind this one
    rw [hf.sound.numElm_eq_zero] at hzero
    rw [hf'.sound.numElm_eq_zero]
    have hmi : m ≤ i := by
      by_contra hlt
      refine hm.before i (by omega) ?_
      rw [subElms_of_some hs₁, hzero]
    -- the sub table is not one of those that are visited
    have hnew : e j ∉ (Ico 0 m).image e := by
      intro hmem
      obtain ⟨k, hk, heq⟩ := mem_image.1 hmem
      rw [mem_Ico] at hk
      have hempty := hm.empty (by omega)
      rw [hg.between (show k ≤ m by omega) (show m ≤ j by omega) hj heq.symm] at hempty
      exact hm.before k hk.2 hempty
    have hsub : insert (e j) ((Ico 0 m).image e) ⊆ (Ico 0 (2 ^ t.chLevel)).image e := by
      rw [insert_subset_iff]
      exact ⟨mem_image_of_mem e (mem_Ico.2 ⟨Nat.zero_le j, hj⟩), image_subset hm.le⟩
    have hle := sum_le_sum_of_subset (f := subElms t) hsub
    rw [sum_insert hnew, subElms_of_some hs₂] at hle
    have hcard := Multiset.card_le_card hle
    rw [Multiset.card_add] at hcard
    have hsum : Multiset.card (∑ id ∈ (Ico 0 (2 ^ t.chLevel)).image e, subElms t id) =
        Multiset.card (∑ id ∈ (Ico 0 m).image e, subElms t id) := by
      have h := congrArg Multiset.card hall
      rw [hg.contents_eq_tail] at h
      exact h.symm
    exact Multiset.card_eq_zero.1 (by omega)
  · intro hcond
    -- what is behind the first empty sub table has no elements
    rw [hg.contents_eq_tail]
    apply sum_subset (image_subset hm.le)
    intro id hid hout
    obtain ⟨j, hj, rfl⟩ := mem_image.1 hid
    rw [mem_Ico] at hj
    have hmj : m ≤ j := by
      by_contra hlt
      exact hout (mem_image_of_mem e (mem_Ico.2 ⟨Nat.zero_le j, by omega⟩))
    have hempty := hm.empty (by omega)
    rcases Nat.eq_or_lt_of_le hmj with rfl | hlt
    · exact hempty
    · obtain ⟨s, hs, hf⟩ := hg.live m (by omega)
      obtain ⟨s', hs', hf'⟩ := hg.live j hj.2
      rw [subElms_of_some hs] at hempty
      rw [subElms_of_some hs']
      exact hf'.sound.numElm_eq_zero.1
        (hcond e hg.exts m j hlt hj.2 s s' hs hs' (hf.sound.numElm_eq_zero.2 hempty))

/-- For every hash function and in every run: the iteration ends, visits no more than what is
    stored, and visits all of it, each element once, exactly where no sub table with elements stands
    behind one without. -/
theorem foreach_complete_iff [DecidableEq α] (T : ChType α) (t : ChTable α) (stored : Multiset α)
    (hr : Reach T t stored) (it : ChIter) :
    ∃ l, Foreach t it l ∧ (∀ l', Foreach t it l' → l' = l) ∧ (l : Multiset α) ≤ stored ∧
      ((l : Multiset α) = stored ↔ NothingBehindEmpty t) := by
  obtain ⟨hok, helms, _⟩ := hr.ok
  rcases hok with hnone | ⟨e, hg⟩
  · have hzero := contents_of_none hnone
    have hfirst : chFirst t it = .ok (it, none) := by
      rw [chFirst, hnone, Option.isNone_none, if_pos rfl]
    refine ⟨[], .empty hfirst, fun l' h => h.unique (.empty hfirst), ?_, ?_⟩
    · rw [← helms, hzero]
      exact le_rfl
    · refine iff_of_true ?_ fun e he => ?_
      · rw [← helms, hzero]
        rfl
      · rw [hnone] at he
        cases he
  · obtain ⟨m, hm⟩ := exists_firstEmpty t e
    obtain ⟨l, hl, hvisits⟩ := hg.foreach hm it
    refine ⟨l, hl, fun l' h => h.unique hl, ?_, ?_⟩
    · rw [hvisits, ← helms]
      exact hg.tail_le hm
    · rw [hvisits, ← helms]
      exact hg.tail_eq_iff hm

/-- If all elements have the hash 0, the sub tables behind the first one are empty. -/
theorem Good.nothingBehindEmpty {t : ChTable ℕ} (hg : Good constType t e) :
    NothingBehindEmpty t := by
  intro e' he i j hij hj s s' hs hs' hzero
  obtain rfl := Option.some.inj (hg.exts.symm.trans he)
  obtain ⟨s₁, hs₁, hf⟩ := hg.live j hj
  obtain rfl := Option.some.inj (hs₁.symm.trans hs')
  by_contra hne
  obtain ⟨x, hx⟩ := Multiset.exists_mem_of_ne_zero fun h => hne (hf.sound.numElm_eq_zero.mpr h)
  have hbits : chH1Bits ≤ 64 := by decide
  have hside := hf.side x hx
  have hlevel := hf.level.trans hg.level.le
  have hfirst : chH1 (constType.tHash x) s₁.csLocalLevel = 0 := by
    rw [chH1_eq (by omega)]
    exact Nat.zero_div _
  rw [hfirst] at hside
  -- both entries are those of the first sub table
  have hsame : e i = e j := by
    have hle : i / 2 ^ (t.chLevel - s₁.csLocalLevel) ≤ j / 2 ^ (t.chLevel - s₁.csLocalLevel) :=
      Nat.div_le_div_right hij.le
    rw [← hside] at hle
    rw [hf.block i (by omega), ← hside]
    exact Nat.le_zero.mp hle
  rw [hsame, hs₁] at hs
  obtain rfl := Option.some.inj hs
  exact hne hzero

/-- After two insertions both elements are visited. -/
theorem foreach_complete_iff_pair : ∃ t l, Reach constType t {6, 5} ∧ Foreach t ⟨0, 0, 0⟩ l ∧
    (l : Multiset ℕ) = {6, 5} := by
  obtain ⟨t, hr⟩ := exists_pair
  obtain ⟨e, hg⟩ := hr.exists_good (by decide)
  obtain ⟨l, hl, -, -, hiff⟩ := foreach_complete_iff constType t {6, 5} hr ⟨0, 0, 0⟩
  exact ⟨t, l, hr, hl, hiff.mpr hg.nothingBehindEmpty⟩

/-! ## A table without visits -/

/-- Numbers whose hash is the number with the top bit. -/
def highType : ChType ℕ := ⟨fun x y => x == y, fun _ => 0x8000000000000000⟩

theorem lawful_highType : highType.Lawful :=
  ⟨fun x => beq_self_eq_true x, fun x y h => by rw [beq_iff_eq.1 h]; exact beq_self_eq_true y,
    fun x y z h h' => by rw [beq_iff_eq.1 h]; exact h', fun _ _ _ => rfl⟩

/-- The first sub table has at least one bit of its own, so it has no element with the top bit. -/
theorem Good.foreach_nil {t : ChTable ℕ} {s : ChSub ℕ} (hg : Good highType t e)
    (hs : t.subs (e 0) = some s)
    (hlevel : 0 < s.csLocalLevel) (it : ChIter) : Foreach t it [] := by
  have hbits := hg.level
  have h64 : chH1Bits ≤ 64 := by decide
  obtain ⟨s₀, hs₀, hf⟩ := hg.live 0 (Nat.two_pow_pos _)
  have hsame : s₀ = s := Option.some.inj (hs₀.symm.trans hs)
  subst hsame
  have hle := hf.level
  have hzero : s₀.contents = 0 := by
    rw [Multiset.eq_zero_iff_forall_notMem]
    intro x hx
    have hside := hf.side x hx
    rw [Nat.zero_div, chH1_eq (by omega)] at hside
    have hpos : 0 < (highType.tHash x).toNat / 2 ^ (64 - s₀.csLocalLevel) := by
      apply Nat.div_pos _ (Nat.two_pow_pos _)
      calc 2 ^ (64 - s₀.csLocalLevel) ≤ 2 ^ 63 := Nat.pow_le_pow_right (by omega) (by omega)
        _ = (highType.tHash x).toNat := rfl
    omega
  have hfirst := hg.chFirst_eq it hs
  have hstep := chSubFirst_step hf.sound { it with ciExtIdx := 0 }
  rcases hv : chSubFirst s₀ { it with ciExtIdx := 0 } with ⟨it', v⟩
  rw [hv] at hfirst hstep
  cases v with
  | none => exact .empty hfirst
  | some x =>
    have hrest := (hstep.some x rfl).2.2
    rw [hzero] at hrest
    exact absurd hrest.symm Multiset.cons_ne_zero

/-- The first sub table was split. -/
def FirstSplit (t : ChTable ℕ) : Prop :=
  ∃ e s, Good highType t e ∧ t.subs (e 0) = some s ∧ 0 < s.csLocalLevel

/-- The entries of a sub table without bits are all of them. -/
theorem Good.eq_of_level_zero (hg : Good T t e) (hs : t.subs (e 0) = some s)
    (hzero : s.csLocalLevel = 0) (hj : j < 2 ^ t.chLevel) : e j = e 0 := by
  obtain ⟨s₀, hs₀, hf⟩ := hg.live 0 (Nat.two_pow_pos _)
  have hsame : s₀ = s := Option.some.inj (hs₀.symm.trans hs)
  subst hsame
  rw [hf.block j hj, hzero, Nat.sub_zero, Nat.div_eq_of_lt hj, Nat.zero_div]

/-- A split somewhere is a split of the first sub table. -/
theorem Good.firstSplit {t : ChTable ℕ} {s : ChSub ℕ} (hg : Good highType t e)
    (hj : j < 2 ^ t.chLevel) (hs : t.subs (e j) = some s) (hpos : 0 < s.csLocalLevel) :
    FirstSplit t := by
  obtain ⟨s₀, hs₀, hf₀⟩ := hg.live 0 (Nat.two_pow_pos _)
  refine ⟨e, s₀, hg, hs₀, ?_⟩
  by_contra hzero
  rw [hg.eq_of_level_zero hs₀ (by omega) hj] at hs
  have hsame : s₀ = s := Option.some.inj (hs₀.symm.trans hs)
  subst hsame
  exact hzero hpos

/-- As long as it was not split, it takes every element, and the extendible table is not doubled. -/
theorem exists_run_high (n : ℕ) :
    (∃ t stored, Reach highType t stored ∧ stored ≠ 0 ∧ FirstSplit t) ∨
      ∃ t, Reach highType t (Multiset.range n) ∧
        (n = 0 ∧ t.chExts = none ∧ t.chLevel = 0 ∨ 0 < n ∧ t.chLevel = 1) := by
  induction n with
  | zero => exact .inr ⟨chInitializer, .init, .inl ⟨rfl, rfl, rfl⟩⟩
  | succ n ih =>
    rcases ih with hdone | ⟨t, hr, hlevel⟩
    · exact .inl hdone
    -- a run that has inserted `n` elements goes on with another one
    · obtain ⟨hok, _, _⟩ := hr.ok
      have hfresh : ∀ y ∈ Multiset.range n, highType.tEqual y n = false := by
        intro y hy
        have hlt := Multiset.mem_range.1 hy
        exact beq_false_of_ne hlt.ne
      have hbits : 2 < chH1Bits := by decide
      have hsmall : t.chLevel + 1 < chH1Bits := by
        rcases hlevel with ⟨_, _, hzero⟩ | ⟨_, hone⟩ <;> omega
      obtain ⟨t', hstep, hr'⟩ := hr.exists_insert lawful_highType n hfresh hsmall
      have hins := ends_eq (chInsert_ends _ hok n) hstep
      rw [← Multiset.range_succ] at hr'
      -- the first insertion makes the table
      rcases hlevel with ⟨_, hnone, _⟩ | ⟨hpos, hone⟩
      · have hsucc : (InsResult.new : InsResult ℕ) ≠ .failed := by simp
        exact .inr ⟨t', hr', .inr ⟨Nat.succ_pos n, hins.levelInit hnone hsucc⟩⟩
      · rcases hok with hnone | ⟨e, hg⟩
        · -- a table without entries has no elements
          have hcard := congrArg Multiset.card (hr.ok.2.1)
          rw [contents_of_none hnone, Multiset.card_range] at hcard
          rw [Multiset.card_zero] at hcard
          omega
        · obtain ⟨s, hs, hf⟩ := hg.live _ (hg.index_lt (highType.tHash n))
          -- the sub table has been split before, or the level stays
          by_cases hfull : s.csLocalLevel = t.chLevel
          · refine .inl ⟨t, Multiset.range n, hr, fun hzero => ?_,
              hg.firstSplit (hg.index_lt _) hs (by omega)⟩
            have hcard := congrArg Multiset.card hzero
            rw [Multiset.card_range, Multiset.card_zero] at hcard
            omega
          · exact .inr ⟨t', hr',
              .inr ⟨Nat.succ_pos n, (hins.level e s hg.exts hs hfull).trans hone⟩⟩

/-- The iteration of a table with elements may visit none of them. -/
theorem foreach_misses_all : ∃ t stored, Reach highType t stored ∧ stored ≠ 0 ∧
    ∀ it, Foreach t it [] := by
  rcases exists_run_high 3137 with ⟨t, stored, hr, hne, e, s, hg, hs, hpos⟩ | ⟨t, hr, hlevel⟩
  · exact ⟨t, stored, hr, hne, hg.foreach_nil hs hpos⟩
  · obtain ⟨hok, helms, _⟩ := hr.ok
    have hcard := congrArg Multiset.card helms
    rw [Multiset.card_range] at hcard
    rcases hok with hnone | ⟨e, hg⟩
    · rw [contents_of_none hnone, Multiset.card_zero] at hcard
      omega
    · obtain ⟨s, hs, hf⟩ := hg.live 0 (Nat.two_pow_pos _)
      refine ⟨t, Multiset.range 3137, hr, fun hzero => ?_, hg.foreach_nil hs ?_⟩
      · rw [helms, hzero, Multiset.card_zero] at hcard
        omega
      · by_contra hzero
        -- all elements are in one sub table, which is too small
        have hids : ids e t.chLevel = {e 0} := by
          refine eq_singleton_iff_unique_mem.2 ⟨mem_ids (Nat.two_pow_pos _), fun id hid => ?_⟩
          obtain ⟨j, hj, rfl⟩ := mem_image.1 hid
          exact hg.eq_of_level_zero hs (by omega) (mem_range.1 hj)
        rw [hg.contents_eq, hids, sum_singleton, subElms_of_some hs, hf.sound.card] at hcard
        have hload := hf.load
        have hlimit : loadLimit = 3136 := rfl
        omega

end Bgpd.Chash
