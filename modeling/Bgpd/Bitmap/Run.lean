import Bgpd.Bitmap.Spec
import Mathlib.Algebra.BigOperators.Group.Finset.Piecewise

/-!
# Bitmaps as Sets of Ids

Any number of maps share the heap. Whatever is done with them, each of them is the set of the ids
that were set in it and not cleared since, on both sides of the move to the heap. Every block
belongs to exactly one map, so none is lost, and the counters of the statistics are exact.

## Main definitions

- `Reach`: the maps and the heap of all runs, with the sets they should stand for

## Main results

- `Reach.ok`: the invariant of runs
- `sets_of_runs`: the functions are those of finite sets
-/

namespace Bgpd.Bitmap

open Bgpd.Lib

variable {ι : Type} [Fintype ι] [DecidableEq ι] {maps : ι → Bitmap} {stored : ι → Finset ℕ}
  {h h' : Heap} {map' : Bitmap} {s' : Finset ℕ} {i j : ι}

/-! ## Runs -/

/-- The heap at the start. -/
def emptyHeap : Heap := ⟨fun _ => none, 0, 0⟩

/-- A run of calls of `bitmap_set`, `bitmap_clear` and `bitmap_id_put`, `bitmap_id_get` and
    `bitmap_reset` on any of the maps. The other functions change nothing. -/
inductive Reach : (ι → Bitmap) → Heap → (ι → Finset ℕ) → Prop
  | init : Reach (fun _ => bitmapInit) emptyHeap fun _ => ∅
  | set {maps : ι → Bitmap} {h h' : Heap} {stored : ι → Finset ℕ} (i : ι) (bid : ℕ)
      (mem : Option (BitVec 64)) {map' : Bitmap} {done : Bool} (hrun : Reach maps h stored)
      (hmem : FreshAddr h mem) (hbid : bid < 2 ^ 32)
      (hstep : bitmapSet mem h (maps i) bid = .ok (h', map', done)) :
      Reach (Function.update maps i map') h'
        (Function.update stored i (if done then insert bid (stored i) else stored i))
  | clear {maps : ι → Bitmap} {h h' : Heap} {stored : ι → Finset ℕ} (i : ι) (bid : ℕ)
      {map' : Bitmap} (hrun : Reach maps h stored)
      (hstep : bitmapClear h (maps i) bid = .ok (h', map')) :
      Reach (Function.update maps i map') h' (Function.update stored i ((stored i).erase bid))
  | idGet {maps : ι → Bitmap} {h h' : Heap} {stored : ι → Finset ℕ} (i : ι)
      (mem : Option (BitVec 64)) {map' : Bitmap} {bid : ℕ} {done : Bool}
      (hrun : Reach maps h stored) (hmem : FreshAddr h mem)
      (hstep : bitmapIdGet mem h (maps i) = .ok (h', map', bid, done)) :
      Reach (Function.update maps i map') h'
        (Function.update stored i (if done then insert bid (stored i) else stored i))
  | reset {maps : ι → Bitmap} {h h' : Heap} {stored : ι → Finset ℕ} (i : ι) {map' : Bitmap}
      (hrun : Reach maps h stored) (hstep : bitmapReset h (maps i) = .ok (h', map')) :
      Reach (Function.update maps i map') h' (Function.update stored i ∅)

/-! ## The invariant -/

/-- What holds of all maps and the heap. -/
structure AllHold (maps : ι → Bitmap) (h : Heap) (stored : ι → Finset ℕ) : Prop where
  holds : ∀ i, Holds h (maps i) (stored i)
  distinct : ∀ i j a, own (maps i) = some a → own (maps j) = some a → i = j
  owned : ∀ a, h.blocks a ≠ none → ∃ i, own (maps i) = some a
  size : h.bitmapSize = ∑ i, bytes (maps i)
  cnt : h.bitmapCnt = ∑ i, held (maps i)

omit [DecidableEq ι] in
theorem AllHold.live (hall : AllHold maps h stored) {a : BitVec 64} (hown : own (maps i) = some a) :
    h.blocks a ≠ none := by
  obtain ⟨ws, hw, _, _⟩ := hall.holds i
  rw [hw.own_ne_none hown]
  exact Option.some_ne_none ws

theorem sum_update (f : Bitmap → BitVec 64) (maps : ι → Bitmap) (i : ι) (map' : Bitmap) :
    ∑ j, f (Function.update maps i map' j) + f (maps i) = ∑ j, f (maps j) + f map' := by
  have hnew : ∑ j, f (Function.update maps i map' j) =
      f map' + ∑ j ∈ Finset.univ.erase i, f (maps j) := by
    rw [← Finset.add_sum_erase _ _ (Finset.mem_univ i), Function.update_self]
    refine congrArg _ (Finset.sum_congr rfl fun j hj => ?_)
    rw [Function.update_of_ne (Finset.ne_of_mem_erase hj)]
  rw [hnew, ← Finset.add_sum_erase _ _ (Finset.mem_univ i)]
  ring

/-- The step lemma: a function that changes one map keeps the invariant. -/
theorem AllHold.step (hall : AllHold maps h stored) (hholds : Holds h' map' s')
    (hmoved : Moved h (maps i) h' map') :
    AllHold (Function.update maps i map') h' (Function.update stored i s') := by
  -- the addresses of the other maps stay different
  have hapart : ∀ j a, j ≠ i → own (maps j) = some a → own map' ≠ some a := by
    intro j a hne hown hown'
    rcases hmoved.fresh a hown' with hsame | hnone
    · exact hne (hall.distinct j i a hown hsame)
    · exact hall.live hown hnone
  refine ⟨fun j => ?_, fun j k a hj hk => ?_, fun a hlive => ?_, ?_, ?_⟩
  -- the maps hold what they held
  · by_cases hji : j = i
    · subst hji
      rw [Function.update_self, Function.update_self]
      exact hholds
    · rw [Function.update_of_ne hji, Function.update_of_ne hji]
      refine (hall.holds j).others fun a hown => ?_
      refine hmoved.others a (hall.live hown) fun hi => hji (hall.distinct j i a hown hi)
  -- two maps do not share a block
  · by_cases hji : j = i
    · by_cases hki : k = i
      · rw [hji, hki]
      · subst hji
        rw [Function.update_self] at hj
        rw [Function.update_of_ne hki] at hk
        exact absurd hj (hapart k a hki hk)
    · rw [Function.update_of_ne hji] at hj
      by_cases hki : k = i
      · subst hki
        rw [Function.update_self] at hk
        exact absurd hk (hapart j a hji hj)
      · rw [Function.update_of_ne hki] at hk
        exact hall.distinct j k a hj hk
  -- every block belongs to a map
  · rcases (hmoved.live a).1 hlive with hown | ⟨hold, hne⟩
    · exact ⟨i, by rwa [Function.update_self]⟩
    · obtain ⟨j, hj⟩ := hall.owned a hold
      have hji : j ≠ i := by
        rintro rfl
        exact hne hj
      exact ⟨j, by rwa [Function.update_of_ne hji]⟩
  -- the accounts of memory
  · have hsum := sum_update bytes maps i map'
    have hsize := hmoved.size
    rw [hall.size, ← hsum] at hsize
    exact add_right_cancel hsize
  · have hsum := sum_update held maps i map'
    have hcnt := hmoved.cnt
    rw [hall.cnt, ← hsum] at hcnt
    exact add_right_cancel hcnt

/-- A function that fails changes nothing. -/
theorem AllHold.update_self (hall : AllHold maps h stored) (hmap : map' = maps i)
    (hs : s' = stored i) : AllHold (Function.update maps i map') h
      (Function.update stored i s') := by
  subst hmap hs
  rw [Function.update_eq_self, Function.update_eq_self]
  exact hall

omit [DecidableEq ι] in
theorem allHold_init : AllHold (fun _ : ι => bitmapInit) emptyHeap fun _ => ∅ := by
  have hown : own bitmapInit = none := own_inline BitVec.getLsbD_zero
  refine ⟨fun _ => holds_init _, fun i j a hi => ?_, fun a hlive => absurd rfl hlive, ?_, ?_⟩
  · rw [hown] at hi
    cases hi
  · exact (Finset.sum_eq_zero fun _ _ => if_pos hown).symm
  · exact (Finset.sum_eq_zero fun _ _ => if_pos hown).symm

/-- The run lemma. -/
theorem Reach.ok (hr : Reach maps h stored) : AllHold maps h stored := by
  induction hr with
  | init => exact allHold_init
  | set i bid mem hrun hmem hbid hstep ih =>
    have hok := ends_eq (bitmapSet_ends (ih.holds i) hmem hbid) hstep
    rename_i map' done
    cases done with
    | true =>
      obtain ⟨_, hholds, hmoved⟩ := hok.done rfl
      exact ih.step hholds hmoved
    | false =>
      obtain ⟨rfl, hmap, _⟩ := hok.failed rfl
      exact ih.update_self hmap rfl
  | clear i bid hrun hstep ih =>
    obtain ⟨hholds, hmoved, _⟩ := ends_eq (bitmapClear_ends (ih.holds i) bid) hstep
    exact ih.step hholds hmoved
  | idGet i mem hrun hmem hstep ih =>
    have hok := ends_eq (bitmapIdGet_ends (ih.holds i) hmem) hstep
    rename_i map' bid done
    cases done with
    | true =>
      obtain ⟨_, _, hholds, hmoved⟩ := hok.done rfl
      exact ih.step hholds hmoved
    | false =>
      obtain ⟨rfl, hmap, _⟩ := hok.failed rfl
      exact ih.update_self hmap rfl
  | reset i hrun hstep ih =>
    obtain ⟨hholds, hmoved, _⟩ := ends_eq (bitmapReset_ends (ih.holds i)) hstep
    exact ih.step hholds hmoved

/-! ## The functions -/

/-- What the functions say about one map and its set, and what is on the heap. -/
structure SetsOk (maps : ι → Bitmap) (h : Heap) (stored : ι → Finset ℕ) : Prop where
  ids : ∀ i, ∀ bid ∈ stored i, 0 < bid ∧ bid < 2 ^ 32
  test : ∀ i bid, bitmapTest h (maps i) bid = .ok (decide (bid ∈ stored i))
  empty : ∀ i, bitmapEmpty h (maps i) = .ok (decide (stored i = ∅))
  set : ∀ i bid mem, bid < 2 ^ 32 → FreshAddr h mem →
    ∃ h' map' done, bitmapSet mem h (maps i) bid = .ok (h', map', done) ∧
      (done = false → h' = h ∧ map' = maps i ∧ (bid = 0 ∨ mem = none))
  clear : ∀ i bid, ∃ r, bitmapClear h (maps i) bid = .ok r
  /-- The least free id, unless there is no memory for it or none is left. -/
  idGet : ∀ i mem, FreshAddr h mem →
    ∃ h' map' bid done, bitmapIdGet mem h (maps i) = .ok (h', map', bid, done) ∧
      (done = true → bid < 2 ^ 32 ∧ Least (stored i) bid) ∧
      (done = false → h' = h ∧ map' = maps i ∧
        (mem = none ∨ ∀ k, 0 < k → k < 2 ^ 32 → k ∈ stored i))
  reset : ∀ i, ∃ h', bitmapReset h (maps i) = .ok (h', bitmapInit)
  /-- Every block belongs to exactly one map. -/
  blocks : ∀ a, h.blocks a ≠ none ↔ ∃! i, own (maps i) = some a
  size : h.bitmapSize = ∑ i, bytes (maps i)
  cnt : h.bitmapCnt = ∑ i, held (maps i)

/-- For any number of maps and in every run the maps are finite sets of ids: `bitmap_test` and
    `bitmap_empty` answer as the sets do, `bitmap_id_get` finds the least id that is not in the set,
    and `bitmap_set` and `bitmap_id_get` fail only for want of memory or of ids, and then change
    nothing. No block of the heap is lost, and the statistics are exact. -/
theorem sets_of_runs (maps : ι → Bitmap) (h : Heap) (stored : ι → Finset ℕ)
    (hr : Reach maps h stored) : SetsOk maps h stored := by
  have hall := hr.ok
  refine ⟨fun i bid hin => ⟨?_, ?_⟩, fun i => bitmapTest_eq (hall.holds i),
    fun i => bitmapEmpty_eq (hall.holds i), fun i bid mem hbid hmem => ?_, fun i bid => ?_,
    fun i mem hmem => ?_, fun i => ?_, fun a => ⟨fun hlive => ?_, fun hown => ?_⟩, hall.size,
    hall.cnt⟩
  · apply Nat.pos_of_ne_zero
    rintro rfl
    exact (hall.holds i).zero hin
  · obtain ⟨ws, hw, _, _⟩ := hall.holds i
    exact ((hall.holds i).lt hin).trans_le hw.capacity_le
  · obtain ⟨⟨h', map', done⟩, hstep, hok⟩ := bitmapSet_ends (hall.holds i) hmem hbid
    refine ⟨h', map', done, hstep, fun hfail => ?_⟩
    obtain ⟨hh, hmap, hwhy⟩ := hok.failed hfail
    exact ⟨hh, hmap, hwhy.imp_right And.left⟩
  · exact (bitmapClear_ends (hall.holds i) bid).exists_ok
  · obtain ⟨⟨h', map', bid, done⟩, hstep, hok⟩ := bitmapIdGet_ends (hall.holds i) hmem
    refine ⟨h', map', bid, done, hstep, fun hdone => ?_, fun hfail => ?_⟩
    · obtain ⟨hlt, hleast, _⟩ := hok.done hdone
      exact ⟨hlt, hleast⟩
    · obtain ⟨hh, hmap, hfull | ⟨hnone, _⟩⟩ := hok.failed hfail
      · exact ⟨hh, hmap, .inr hfull⟩
      · exact ⟨hh, hmap, .inl hnone⟩
  · obtain ⟨⟨h', map'⟩, hstep, _, _, hinit⟩ := bitmapReset_ends (hall.holds i)
    dsimp only at hinit
    subst hinit
    exact ⟨h', hstep⟩
  · obtain ⟨i, hi⟩ := hall.owned a hlive
    exact ⟨i, hi, fun j hj => hall.distinct j i a hj hi⟩
  · obtain ⟨i, hi, _⟩ := hown
    exact hall.live hi

/-- The first id of a map that moves to the heap. -/
theorem sets_of_runs_moved : ∃ maps h, Reach maps h (fun _ : Unit => {200}) ∧
    SetsOk maps h (fun _ : Unit => {200}) := by
  have hfresh : FreshAddr emptyHeap (some 16) := by
    intro a ha
    rw [Option.some.injEq] at ha
    subst ha
    exact ⟨by decide, rfl⟩
  obtain ⟨⟨h', map', done⟩, hstep, hok⟩ :=
    bitmapSet_ends (holds_init emptyHeap) hfresh (show 200 < 2 ^ 32 by decide)
  have hdone : done = true := by
    rw [← Bool.not_eq_false]
    intro hfail
    obtain ⟨_, _, hzero | ⟨hnone, _⟩⟩ := hok.failed hfail
    · cases hzero
    · cases hnone
  subst hdone
  have hr := Reach.init.set () 200 (some 16) hfresh (by decide) hstep
  have hset : Function.update (fun _ : Unit => (∅ : Finset ℕ)) () (insert 200 ∅) =
      fun _ => {200} := by
    funext i
    rfl
  rw [if_pos rfl, hset] at hr
  exact ⟨_, h', hr, sets_of_runs _ h' _ hr⟩

end Bgpd.Bitmap
