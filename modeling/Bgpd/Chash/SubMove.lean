import Bgpd.Chash.SubSpec

/-!
# Split and Merge of Sub Tables

A split and a merge insert all elements of the old sub tables into new ones. The new sub tables hold
exactly these elements, without tombstones, and they fail only when two elements are equal.

## Main results

- `chSubSplit_ends`
- `chSubMerge_ends`
-/

namespace Bgpd.Chash

open Bgpd.Lib

variable {α : Type} {T : ChType α} {s s' low high low' high' : ChSub α} {g : ChGroup α} {n : ℕ}

/-! ## The elements in order -/

theorem usedSlots_eq (m : BitVec 64) : usedSlots m = (List.range 7).filter fun i => used m i := by
  have hbit : ∀ f : BitVec 8, ∀ i < 7,
      ((f &&& chSlotMask) &&& ((1 : BitVec 8) <<< i) ≠ 0 ↔ f.getLsbD i = true) := by
    decide +kernel
  apply List.filter_congr
  intro i hi
  have hlt := List.mem_range.1 hi
  have hflag : (cgMetaGetFlags m).getLsbD i = used m i := getLsbD_getFlags (by omega)
  rw [Bool.eq_iff_iff, decide_eq_true_iff, ← hflag]
  exact hbit (cgMetaGetFlags m) i hlt

theorem exists_slotElms (hdata : g.DataOk) (hn : n ≤ 7) :
    ∃ xs : List α, ((List.range n).filter fun i => used g.cgMeta i).map g.cgData = xs.map some ∧
      (xs : Multiset α) = ∑ i ∈ Finset.range n, slotElm g i := by
  induction n with
  | zero => exact ⟨[], rfl, rfl⟩
  | succ n ih =>
    obtain ⟨xs, hxs, hsum⟩ := ih (by omega)
    rw [List.range_succ, List.filter_append, List.map_append, hxs, Finset.sum_range_succ, ← hsum]
    by_cases hused : used g.cgMeta n = true
    · obtain ⟨x, hx⟩ := Option.isSome_iff_exists.1 (hdata n (by omega) hused)
      refine ⟨xs ++ [x], by simp [hused, hx], ?_⟩
      rw [slotElm_of_used hused hx]
      rfl
    · refine ⟨xs, by simp [hused], ?_⟩
      rw [slotElm_of_free (by simpa using hused), add_zero]

/-- The elements that the code goes through are the elements of the group. -/
theorem exists_elms (hdata : g.DataOk) :
    ∃ xs : List α, g.elms = xs.map some ∧ (xs : Multiset α) = g.contents := by
  rw [ChGroup.elms, usedSlots_eq]
  exact exists_slotElms hdata le_rfl

/-- The same for all groups. -/
theorem exists_flatMap {f : ℕ → List (Option α)} {c : ℕ → Multiset α}
    (hf : ∀ b < n, ∃ xs : List α, f b = xs.map some ∧ (xs : Multiset α) = c b) :
    ∃ xs : List α, (List.range n).flatMap f = xs.map some ∧
      (xs : Multiset α) = ∑ b ∈ Finset.range n, c b := by
  induction n with
  | zero => exact ⟨[], rfl, rfl⟩
  | succ n ih =>
    obtain ⟨xs, hxs, hsum⟩ := ih fun b hb => hf b (by omega)
    obtain ⟨ys, hys, hlast⟩ := hf n (by omega)
    refine ⟨xs ++ ys, ?_, ?_⟩
    · rw [List.range_succ, List.flatMap_append, hxs, List.flatMap_singleton, hys, List.map_append]
    · rw [Finset.sum_range_succ, ← hsum, ← hlast]
      rfl

theorem exists_subElms (hs : Sound s) :
    ∃ xs : List α, ((List.range chH2Size).flatMap fun n => (s.ceTable n).elms) = xs.map some ∧
      (xs : Multiset α) = s.contents := by
  rw [contents_eq_sum]
  exact exists_flatMap fun b hb => exists_elms (hs.data b hb)

theorem exists_mergeElms (hs : Sound s) (hs' : Sound s') :
    ∃ xs : List α, ((List.range chH2Size).flatMap fun n =>
        (s.ceTable n).elms ++ (s'.ceTable n).elms) = xs.map some ∧
      (xs : Multiset α) = s.contents + s'.contents := by
  rw [contents_eq_sum, contents_eq_sum, ← Finset.sum_add_distrib]
  refine exists_flatMap fun b hb => ?_
  obtain ⟨xs, hxs, hsum⟩ := exists_elms (hs.data b hb)
  obtain ⟨ys, hys, hsum'⟩ := exists_elms (hs'.data b hb)
  refine ⟨xs ++ ys, by rw [hxs, hys, List.map_append], ?_⟩
  rw [← hsum, ← hsum']
  rfl

/-! ## Moving elements -/

/-- No two elements are equal for `t_equal`. -/
def Distinct (T : ChType α) (m : Multiset α) : Prop :=
  ∀ x y rest, m = x ::ₘ y ::ₘ rest → T.tEqual y x = false

theorem Distinct.of_add {m m' : Multiset α} (h : Distinct T (m + m')) : Distinct T m := by
  intro x y rest heq
  refine h x y (rest + m') ?_
  rw [heq, Multiset.cons_add, Multiset.cons_add]

/-- An element that is moved to its equal. -/
theorem not_distinct_of_mem {m m' : Multiset α} {x y : α} (hy : y ∈ m)
    (heq : T.tEqual y x = true) : ¬ Distinct T (m + x ::ₘ m') := by
  intro hd
  obtain ⟨rest, rfl⟩ := Multiset.exists_cons_of_mem hy
  have h := hd x y (rest + m') (by
    rw [Multiset.add_cons, Multiset.cons_add])
  rw [heq] at h
  cases h

/-- What the move of the elements `xs` does to a sub table, as far as it does not matter which of
    them it gets. -/
structure Filled (T : ChType α) (s s' : ChSub α) (k : ℕ) : Prop where
  sound : Sound s'
  level : s'.csLocalLevel = s.csLocalLevel
  tomb : s'.csNumTomb ≤ s.csNumTomb
  load : s'.csNumElm + s'.csNumTomb ≤ s.csNumElm + s.csNumTomb + k
  chained : Chained T s → Chained T s'

theorem Filled.refl (hs : Sound s) (k : ℕ) : Filled T s s k :=
  ⟨hs, rfl, le_rfl, by omega, id⟩

theorem Inserted.filled {x : α} {v : Option α} {k : ℕ} {s'' : ChSub α}
    (h : Inserted T s (T.tHash x) x s' v) (hrest : Filled T s' s'' k) : Filled T s s'' (k + 1) := by
  have hload := h.load
  have hload' := hrest.load
  exact ⟨hrest.sound, hrest.level.trans h.level, hrest.tomb.trans h.tomb, by omega,
    fun hc => hrest.chained (h.chained hc rfl)⟩

theorem Filled.mono {k k' : ℕ} (h : Filled T s s' k) (hle : k ≤ k') : Filled T s s' k' := by
  have hload := h.load
  exact ⟨h.sound, h.level, h.tomb, by omega, h.chained⟩

/-! ## Split -/

/-- The new sub tables of a split. -/
structure SplitInto (T : ChType α) (level : ℕ) (xs : List α) (low high low' high' : ChSub α) :
    Prop where
  fillLow : Filled T low low' xs.length
  fillHigh : Filled T high high' xs.length
  elms : low'.contents + high'.contents = low.contents + high.contents + xs
  sideLow : ∀ x ∈ low'.contents, x ∈ low.contents ∨ x ∈ xs ∧ chH1 (T.tHash x) level % 2 = 0
  sideHigh : ∀ x ∈ high'.contents, x ∈ high.contents ∨ x ∈ xs ∧ chH1 (T.tHash x) level % 2 = 1

/-- The loop sorts the elements by the bit of `level`, or two of them are equal. -/
theorem splitLoop_ends (level : ℕ) (xs : List α) :
    ∀ low high : ChSub α, Sound low → Sound high →
      low.csNumElm + low.csNumTomb + xs.length < chH2Size * 7 →
      high.csNumElm + high.csNumTomb + xs.length < chH2Size * 7 →
      Ends (splitLoop T level (xs.map some) low high) fun r =>
        (∀ low' high', r = some (low', high') → SplitInto T level xs low high low' high') ∧
        (r = none → ¬ Distinct T (low.contents + high.contents + xs)) := by
  induction xs with
  | nil =>
    intro low high hlow hhigh _ _
    rw [List.map_nil, splitLoop, ends_ok_iff]
    refine ⟨fun low' high' h => ?_, by simp⟩
    simp only [Option.some.injEq, Prod.mk.injEq] at h
    obtain ⟨rfl, rfl⟩ := h
    exact ⟨Filled.refl hlow _, Filled.refl hhigh _, by simp, fun x hx => .inl hx,
      fun x hx => .inl hx⟩
  | cons x xs ih =>
    intro low high hlow hhigh hloadLow hloadHigh
    rw [List.length_cons] at hloadLow hloadHigh
    rw [List.map_cons, splitLoop]
    refine Ends.ite (fun hside => ?_) fun hside => ?_
    -- the element goes to the upper half
    · have hodd : chH1 (T.tHash x) level % 2 = 1 := by
        rw [Nat.and_one_is_mod] at hside
        omega
      refine (chSubInsert_ends hhigh (by omega) x).bind fun r hr => ?_
      obtain ⟨high₁, v⟩ := r
      refine Ends.ite (fun hsome => ?_) fun hnone => ?_
      -- an equal element is there already
      · obtain ⟨y, rfl⟩ := Option.isSome_iff_exists.1 hsome
        obtain ⟨_, hy, heq⟩ := hr.found y rfl
        rw [ends_pure_iff]
        refine ⟨by simp, fun _ => ?_⟩
        rw [← Multiset.cons_coe]
        exact not_distinct_of_mem (Multiset.mem_add.2 (.inr hy)) heq
      · rw [Option.not_isSome_iff_eq_none] at hnone
        subst hnone
        have hnew := hr.new rfl
        have hload := hr.load
        dsimp only at hnew hload
        have hsum : low.contents + high₁.contents + xs =
            low.contents + high.contents + ((x :: xs : List α) : Multiset α) := by
          rw [hnew, ← Multiset.cons_coe, Multiset.add_cons, Multiset.add_cons, Multiset.cons_add]
        refine (ih low high₁ hlow hr.sound (by omega) (by omega)).mono fun r hrest => ?_
        refine ⟨fun low' high' h => ?_, fun hnone => ?_⟩
        -- the rest is split with the new element in the upper half
        · have hinto := hrest.1 low' high' h
          refine ⟨hinto.fillLow.mono (by simp), hr.filled hinto.fillHigh, by rw [hinto.elms, hsum],
            fun z hz => ?_, fun z hz => ?_⟩
          · refine (hinto.sideLow z hz).imp_right fun h => ?_
            exact ⟨List.mem_cons_of_mem x h.1, h.2⟩
          · rcases hinto.sideHigh z hz with hmem | h
            · rw [hnew, Multiset.mem_cons] at hmem
              rcases hmem with rfl | hmem
              · exact .inr ⟨by simp, hodd⟩
              · exact .inl hmem
            · exact .inr ⟨List.mem_cons_of_mem x h.1, h.2⟩
        · rw [← hsum]
          exact hrest.2 hnone
    -- the element goes to the lower half
    · have heven : chH1 (T.tHash x) level % 2 = 0 := by
        rw [Nat.and_one_is_mod] at hside
        omega
      refine (chSubInsert_ends hlow (by omega) x).bind fun r hr => ?_
      obtain ⟨low₁, v⟩ := r
      refine Ends.ite (fun hsome => ?_) fun hnone => ?_
      -- an equal element is there already
      · obtain ⟨y, rfl⟩ := Option.isSome_iff_exists.1 hsome
        obtain ⟨_, hy, heq⟩ := hr.found y rfl
        rw [ends_pure_iff]
        refine ⟨by simp, fun _ => ?_⟩
        rw [← Multiset.cons_coe]
        exact not_distinct_of_mem (Multiset.mem_add.2 (.inl hy)) heq
      · rw [Option.not_isSome_iff_eq_none] at hnone
        subst hnone
        have hnew := hr.new rfl
        have hload := hr.load
        dsimp only at hnew hload
        have hsum : low₁.contents + high.contents + xs =
            low.contents + high.contents + ((x :: xs : List α) : Multiset α) := by
          rw [hnew, ← Multiset.cons_coe, Multiset.add_cons, Multiset.cons_add, Multiset.cons_add]
        refine (ih low₁ high hr.sound hhigh (by omega) (by omega)).mono fun r hrest => ?_
        refine ⟨fun low' high' h => ?_, fun hnone => ?_⟩
        -- the rest is split with the new element in the lower half
        · have hinto := hrest.1 low' high' h
          refine ⟨hr.filled hinto.fillLow, hinto.fillHigh.mono (by simp), by rw [hinto.elms, hsum],
            fun z hz => ?_, fun z hz => ?_⟩
          · rcases hinto.sideLow z hz with hmem | h
            · rw [hnew, Multiset.mem_cons] at hmem
              rcases hmem with rfl | hmem
              · exact .inr ⟨by simp, heven⟩
              · exact .inl hmem
            · exact .inr ⟨List.mem_cons_of_mem x h.1, h.2⟩
          · refine (hinto.sideHigh z hz).imp_right fun h => ?_
            exact ⟨List.mem_cons_of_mem x h.1, h.2⟩
        · rw [← hsum]
          exact hrest.2 hnone

/-- What `ch_sub_split` makes of a sub table. -/
structure Split (T : ChType α) (s low high : ChSub α) : Prop where
  soundLow : Sound low
  soundHigh : Sound high
  levelLow : low.csLocalLevel = s.csLocalLevel + 1
  levelHigh : high.csLocalLevel = s.csLocalLevel + 1
  tombLow : low.csNumTomb = 0
  tombHigh : high.csNumTomb = 0
  chainedLow : Chained T low
  chainedHigh : Chained T high
  elms : low.contents + high.contents = s.contents
  sideLow : ∀ x ∈ low.contents, chH1 (T.tHash x) (s.csLocalLevel + 1) % 2 = 0
  sideHigh : ∀ x ∈ high.contents, chH1 (T.tHash x) (s.csLocalLevel + 1) % 2 = 1

theorem chained_alloc (level : ℕ) : Chained T (chSubAlloc level : ChSub α) := by
  have hused : ∀ i < 7, used 0 i = false := by decide
  have hnone : ∀ b i, i < 7 → used ((chSubAlloc level : ChSub α).ceTable b).cgMeta i ≠ true := by
    intro b i hi h
    have hfree : used ((chSubAlloc level : ChSub α).ceTable b).cgMeta i = false := hused i hi
    rw [hfree] at h
    cases h
  exact ⟨fun b _ i hi _ h => absurd h (hnone b i hi), fun b _ i hi _ h => absurd h (hnone b i hi)⟩

/-- A sub table with room splits in two by the next bit of the hash. -/
theorem chSubSplit_ends (hs : Sound s) (hload : s.csNumElm < chH2Size * 7) :
    Ends (chSubSplit T s) fun r => (∀ low high, r = some (low, high) → Split T s low high) ∧
      (r = none → ¬ Distinct T s.contents) := by
  obtain ⟨xs, hxs, hsum⟩ := exists_subElms hs
  have hlen : xs.length = s.csNumElm := by
    rw [← hs.card, ← hsum, Multiset.coe_card]
  have hnew := sound_alloc (α := α) (s.csLocalLevel + 1)
  have hzero := contents_alloc (α := α) (s.csLocalLevel + 1)
  have hnum : ∀ l, (chSubAlloc l : ChSub α).csNumElm + (chSubAlloc l : ChSub α).csNumTomb = 0 :=
    fun _ => rfl
  rw [chSubSplit, hxs]
  refine (splitLoop_ends (s.csLocalLevel + 1) xs _ _ hnew hnew (by rw [hnum]; omega)
    (by rw [hnum]; omega)).mono
    fun r hr => ⟨fun low high h => ?_, fun hnone => ?_⟩
  · have hinto := hr.1 low high h
    refine ⟨hinto.fillLow.sound, hinto.fillHigh.sound, hinto.fillLow.level, hinto.fillHigh.level,
      Nat.le_zero.1 hinto.fillLow.tomb, Nat.le_zero.1 hinto.fillHigh.tomb,
      hinto.fillLow.chained (chained_alloc _), hinto.fillHigh.chained (chained_alloc _), ?_,
      fun x hx => ?_, fun x hx => ?_⟩
    · rw [hinto.elms, hzero, zero_add, zero_add, hsum]
    · have hside := hinto.sideLow x hx
      rw [hzero] at hside
      exact (hside.resolve_left (Multiset.notMem_zero x)).2
    · have hside := hinto.sideHigh x hx
      rw [hzero] at hside
      exact (hside.resolve_left (Multiset.notMem_zero x)).2
  · have hdup := hr.2 hnone
    rwa [hzero, zero_add, zero_add, hsum] at hdup

/-! ## Merge -/

/-- The loop inserts all elements into the table, or two of them are equal. -/
theorem mergeLoop_ends (xs : List α) :
    ∀ s : ChSub α, Sound s → s.csNumElm + s.csNumTomb + xs.length < chH2Size * 7 →
      Ends (mergeLoop T (xs.map some) s) fun r =>
        (∀ s', r = some s' → Filled T s s' xs.length ∧ s'.contents = s.contents + xs) ∧
        (r = none → ¬ Distinct T (s.contents + xs)) := by
  induction xs with
  | nil =>
    intro s hs _
    rw [List.map_nil, mergeLoop, ends_ok_iff]
    refine ⟨fun s' h => ?_, by simp⟩
    rw [Option.some.injEq] at h
    subst h
    exact ⟨Filled.refl hs _, by simp⟩
  | cons x xs ih =>
    intro s hs hload
    rw [List.length_cons] at hload
    rw [List.map_cons, mergeLoop]
    refine (chSubInsert_ends hs (by omega) x).bind fun r hr => ?_
    obtain ⟨s₁, v⟩ := r
    refine Ends.ite (fun hsome => ?_) fun hnone => ?_
    -- an equal element is there already
    · obtain ⟨y, rfl⟩ := Option.isSome_iff_exists.1 hsome
      obtain ⟨_, hy, heq⟩ := hr.found y rfl
      rw [ends_pure_iff]
      refine ⟨by simp, fun _ => ?_⟩
      rw [← Multiset.cons_coe]
      exact not_distinct_of_mem hy heq
    · rw [Option.not_isSome_iff_eq_none] at hnone
      subst hnone
      have hnew := hr.new rfl
      have hload₁ := hr.load
      dsimp only at hnew hload₁
      have hsum : s₁.contents + xs = s.contents + ((x :: xs : List α) : Multiset α) := by
        rw [hnew, ← Multiset.cons_coe, Multiset.add_cons, Multiset.cons_add]
      refine (ih s₁ hr.sound (by omega)).mono fun r hrest => ⟨fun s' h => ?_, fun hnone => ?_⟩
      -- the rest goes behind the new element
      · obtain ⟨hfill, helms⟩ := hrest.1 s' h
        exact ⟨hr.filled hfill, by rw [helms, hsum]⟩
      · rw [← hsum]
        exact hrest.2 hnone

/-- What `ch_sub_merge` makes of two sub tables. -/
structure Merged (T : ChType α) (s buddy s' : ChSub α) : Prop where
  sound : Sound s'
  level : s'.csLocalLevel = s.csLocalLevel - 1
  tomb : s'.csNumTomb = 0
  chained : Chained T s'
  elms : s'.contents = s.contents + buddy.contents

theorem chSubMerge_ends {buddy : ChSub α} (hs : Sound s) (hbuddy : Sound buddy)
    (hload : s.csNumElm + buddy.csNumElm < chH2Size * 7) :
    Ends (chSubMerge T s buddy) fun r => (∀ s', r = some s' → Merged T s buddy s') ∧
      (r = none → ¬ Distinct T (s.contents + buddy.contents)) := by
  obtain ⟨xs, hxs, hsum⟩ := exists_mergeElms hs hbuddy
  have hlen : xs.length = s.csNumElm + buddy.csNumElm := by
    rw [← hs.card, ← hbuddy.card, ← Multiset.card_add, ← hsum, Multiset.coe_card]
  have hnew := sound_alloc (α := α) (s.csLocalLevel - 1)
  have hzero := contents_alloc (α := α) (s.csLocalLevel - 1)
  have hnum : ∀ l, (chSubAlloc l : ChSub α).csNumElm + (chSubAlloc l : ChSub α).csNumTomb = 0 :=
    fun _ => rfl
  rw [chSubMerge, hxs]
  refine (mergeLoop_ends xs _ hnew (by rw [hnum]; omega)).mono fun r hr =>
    ⟨fun s' h => ?_, fun hnone => ?_⟩
  · obtain ⟨hfill, helms⟩ := hr.1 s' h
    rw [hzero, zero_add, hsum] at helms
    exact ⟨hfill.sound, hfill.level, Nat.le_zero.1 hfill.tomb,
      hfill.chained (chained_alloc _), helms⟩
  · have hdup := hr.2 hnone
    rwa [hzero, zero_add, hsum] at hdup

end Bgpd.Chash
