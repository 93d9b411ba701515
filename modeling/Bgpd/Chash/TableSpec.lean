import Bgpd.Chash.SubMove
import Bgpd.Chash.Table
import Mathlib.Data.Nat.Bitwise

/-!
# The Invariant of the Hash Table

The entries of the extendible table that point to one sub table are the block of indices with the
same upper bits, as many as its local level says, and its elements have these bits. The load of a
sub table is bounded by its local level: a split leaves at most the elements it had, and one
insertion follows it. So the load is below the capacity as long as the levels are, and every loop
ends.

## Main results

- `Good`: the invariant
- `good_resize`, `good_growInto`, `good_compactInto`: the changes of the extendible table keep it
- `contents_splitTable`, `contents_mergeTable`: they keep the elements
-/

namespace Bgpd.Chash

open Bgpd.Lib Finset

variable {α : Type} {T : ChType α} {t t' : ChTable α} {e e' : ℕ → ℕ} {s s' b : ChSub α}
  {h : BitVec 64} {i j k l L : ℕ}

/-! ## Upper bits -/

theorem chH1_eq (hl : l ≤ 64) : chH1 h l = h.toNat / 2 ^ (64 - l) := by
  rw [chH1]
  split_ifs with h0
  · subst h0
    rw [Nat.sub_zero, Nat.div_eq_of_lt h.isLt]
  · rw [BitVec.toNat_ushiftRight, Nat.shiftRight_eq_div_pow]

theorem chH1_lt (hl : l ≤ 64) : chH1 h l < 2 ^ l := by
  rw [chH1_eq hl]
  apply Nat.div_lt_of_lt_mul
  rw [← pow_add, Nat.sub_add_cancel hl]
  exact h.isLt

/-- Fewer of the upper bits. -/
theorem chH1_div (hlL : l ≤ L) (hL : L ≤ 64) : chH1 h L / 2 ^ (L - l) = chH1 h l := by
  rw [chH1_eq hL, chH1_eq (hlL.trans hL), Nat.div_div_eq_div_mul, ← pow_add]
  congr 2
  omega

/-! ## The invariant -/

/-- What a sub table may be loaded with before it is split. -/
def loadLimit : ℕ := 3136

/-- The sub table of entry `i`. -/
structure Fits (T : ChType α) (L : ℕ) (e : ℕ → ℕ) (i : ℕ) (s : ChSub α) : Prop where
  sound : Sound s
  chained : Chained T s
  level : s.csLocalLevel ≤ L
  load : s.csNumElm + s.csNumTomb ≤ loadLimit + s.csLocalLevel
  block : ∀ j < 2 ^ L,
    (e j = e i ↔ j / 2 ^ (L - s.csLocalLevel) = i / 2 ^ (L - s.csLocalLevel))
  side : ∀ x ∈ s.contents, chH1 (T.tHash x) s.csLocalLevel = i / 2 ^ (L - s.csLocalLevel)

/-- The table has entries, and all of them are right. -/
structure Good (T : ChType α) (t : ChTable α) (e : ℕ → ℕ) : Prop where
  exts : t.chExts = some e
  level : t.chLevel < chH1Bits
  fresh : ∀ i < 2 ^ t.chLevel, e i < t.next
  live : ∀ i < 2 ^ t.chLevel, ∃ s, t.subs (e i) = some s ∧ Fits T t.chLevel e i s

/-- The elements of a sub table that may have been freed. -/
def subElms (t : ChTable α) (id : ℕ) : Multiset α := (t.subs id).elim 0 ChSub.contents

/-- The sub tables in the entries. -/
def ids (e : ℕ → ℕ) (L : ℕ) : Finset ℕ := (range (2 ^ L)).image e

/-- The elements of the hash table. -/
def ChTable.contents (t : ChTable α) : Multiset α :=
  t.chExts.elim 0 fun e => ∑ id ∈ ids e t.chLevel, subElms t id

theorem Good.contents_eq (hg : Good T t e) : t.contents = ∑ id ∈ ids e t.chLevel, subElms t id := by
  rw [ChTable.contents, hg.exts, Option.elim_some]

theorem Good.exts_eq (hg : Good T t e) : t.exts = e := by
  rw [ChTable.exts, hg.exts, Option.getD_some]

theorem subElms_of_some {id : ℕ} (hs : t.subs id = some s) : subElms t id = s.contents := by
  rw [subElms, hs, Option.elim_some]

/-- Reading an entry. -/
theorem Good.extAt_ok (hg : Good T t e) (hi : i < 2 ^ t.chLevel) :
    ∃ s, extAt t t.exts i = .ok (e i, s) ∧ t.subs (e i) = some s ∧ Fits T t.chLevel e i s := by
  obtain ⟨s, hs, hfits⟩ := hg.live i hi
  refine ⟨s, ?_, hs, hfits⟩
  rw [extAt, if_neg (by omega), hg.exts_eq, hs]

theorem Good.index_lt (hg : Good T t e) (h : BitVec 64) : chH1 h t.chLevel < 2 ^ t.chLevel := by
  have hlevel := hg.level
  have hbits : chH1Bits ≤ 64 := by decide
  exact chH1_lt (by omega)

/-- The load leaves a group open in every sub table. -/
theorem Fits.load_lt (hf : Fits T L e i s) (hL : L < chH1Bits) :
    s.csNumElm + s.csNumTomb < chH2Size * 7 := by
  have hload := hf.load
  have hlevel := hf.level
  have hmax : loadLimit + chH1Bits ≤ chH2Size * 7 := by decide
  omega

theorem Fits.hasOpen (hf : Fits T L e i s) (hL : L < chH1Bits) : HasOpen s := by
  obtain ⟨b, hb, hopen, _⟩ := hf.sound.exists_open (hf.load_lt hL)
  exact ⟨b, hb, hopen⟩

/-- The entries of a block have the same sub table. -/
theorem Fits.of_eq (hf : Fits T L e i s) (hj : j < 2 ^ L) (heq : e j = e i) : Fits T L e j s := by
  have hdiv := (hf.block j hj).1 heq
  refine ⟨hf.sound, hf.chained, hf.level, hf.load, fun k hk => ?_, fun x hx => ?_⟩
  · rw [heq, hf.block k hk, hdiv]
  · rw [hf.side x hx, hdiv]

/-! ## Changes in place -/

theorem setSub_subs (t : ChTable α) (id k : ℕ) (s : ChSub α) :
    (t.setSub id s).subs k = if k = id then some s else t.subs k := by
  simp only [ChTable.setSub, Function.update_apply]

/-- A sub table with the same local level. -/
theorem good_setSub (hg : Good T t e) (hf : Fits T t.chLevel e i s) (hsound : Sound s')
    (hchained : Chained T s') (hlevel : s'.csLocalLevel = s.csLocalLevel)
    (hload : s'.csNumElm + s'.csNumTomb ≤ loadLimit + s.csLocalLevel)
    (hside : ∀ x ∈ s'.contents, x ∈ s.contents ∨ chH1 (T.tHash x) t.chLevel = i) :
    Good T (t.setSub (e i) s') e := by
  have hbits := hg.level
  have h64 : chH1Bits ≤ 64 := by decide
  have hnew : Fits T t.chLevel e i s' := by
    refine ⟨hsound, hchained, hlevel.trans_le hf.level, by rw [hlevel]; exact hload, fun j hj => ?_,
      fun x hx => ?_⟩
    · rw [hlevel]
      exact hf.block j hj
    · rw [hlevel]
      rcases hside x hx with hold | hnew
      · exact hf.side x hold
      · rw [← chH1_div hf.level (by omega), hnew]
  refine ⟨hg.exts, hg.level, hg.fresh, fun j hj => ?_⟩
  rw [setSub_subs]
  split_ifs with heq
  · exact ⟨s', rfl, hnew.of_eq hj heq⟩
  · exact hg.live j hj

theorem mem_ids (hi : i < 2 ^ L) : e i ∈ ids e L := mem_image_of_mem e (mem_range.2 hi)

variable (s') in
theorem contents_setSub (hg : Good T t e) (hi : i < 2 ^ t.chLevel) (hs : t.subs (e i) = some s) :
    (t.setSub (e i) s').contents + s.contents = t.contents + s'.contents := by
  have hsum := sum_change (f := subElms (t.setSub (e i) s')) (g := subElms t) (mem_ids (e := e) hi)
    fun k _ hne => by rw [subElms, setSub_subs, if_neg hne, subElms]
  have hnew : subElms (t.setSub (e i) s') (e i) = s'.contents := by
    apply subElms_of_some
    rw [setSub_subs, if_pos rfl]
  rw [hnew, subElms_of_some hs] at hsum
  have heq : (t.setSub (e i) s').contents =
      ∑ id ∈ ids e t.chLevel, subElms (t.setSub (e i) s') id := by
    rw [ChTable.contents]
    exact congrArg (fun o => Option.elim o 0 _) hg.exts
  rw [heq, hg.contents_eq]
  exact hsum

/-! ## Doubling the extendible table -/

theorem resizeLoop_eq (n : ℕ) (e : ℕ → ℕ) (k : ℕ) :
    resizeLoop n e k = if k < 2 * n then e (k / 2) else e k := by
  induction n generalizing e with
  | zero => simp [resizeLoop]
  | succ n ih =>
    rw [resizeLoop, ih]
    simp only [Function.update_apply]
    by_cases hlow : k < 2 * n
    · rw [if_pos hlow, if_pos (show k < 2 * (n + 1) by omega),
        if_neg (show k / 2 ≠ n * 2 + 1 by omega), if_neg (show k / 2 ≠ n * 2 by omega)]
    · rw [if_neg hlow]
      by_cases hodd : k = n * 2 + 1
      · rw [if_pos hodd, if_pos (show k < 2 * (n + 1) by omega), show k / 2 = n by omega]
        exact ite_eq_right_iff.2 fun _ => rfl
      · rw [if_neg hodd]
        by_cases heven : k = n * 2
        · rw [if_pos heven, if_pos (show k < 2 * (n + 1) by omega), show k / 2 = n by omega]
        · rw [if_neg heven, if_neg (show ¬ k < 2 * (n + 1) by omega)]

theorem div_succ (hl : l ≤ L) : j / 2 / 2 ^ (L - l) = j / 2 ^ (L + 1 - l) := by
  rw [Nat.div_div_eq_div_mul, ← pow_succ', show L + 1 - l = L - l + 1 by omega]

/-- `ch_table_resize` of a table that exists: the entries are doubled, if there is memory. -/
theorem good_resize {r : Bool} (hg : Good T t e) (hr : chTableResize r t = some t') :
    Good T t' (resizeLoop (2 ^ t.chLevel) e) ∧ t'.chLevel = t.chLevel + 1 ∧
      t'.contents = t.contents ∧ t'.ccNumElm = t.ccNumElm ∧ t'.subs = t.subs := by
  rw [chTableResize, hg.exts] at hr
  split_ifs at hr with hmax hmem
  rw [Option.some.injEq] at hr
  subst hr
  -- each bucket becomes two neighbours that name the same sub table
  have hentry : ∀ k < 2 ^ (t.chLevel + 1), resizeLoop (2 ^ t.chLevel) e k = e (k / 2) := by
    intro k hk
    rw [resizeLoop_eq, if_pos (by rw [pow_succ] at hk; omega)]
  have hhalf : ∀ k < 2 ^ (t.chLevel + 1), k / 2 < 2 ^ t.chLevel := by
    intro k hk
    rw [pow_succ] at hk
    omega
  -- so no sub table is added and none is lost
  have hids : ids (resizeLoop (2 ^ t.chLevel) e) (t.chLevel + 1) = ids e t.chLevel := by
    ext id
    simp only [ids, mem_image, mem_range]
    constructor
    · rintro ⟨k, hk, rfl⟩
      exact ⟨k / 2, hhalf k hk, (hentry k hk).symm⟩
    · rintro ⟨k, hk, rfl⟩
      have hlt : k * 2 < 2 ^ (t.chLevel + 1) := by
        rw [pow_succ]
        omega
      exact ⟨k * 2, hlt, by rw [hentry _ hlt, Nat.mul_div_cancel k (by omega)]⟩
  refine ⟨⟨rfl, by simpa using hmax, fun k hk => ?_, fun k hk => ?_⟩, rfl, ?_, rfl, rfl⟩
  · rw [hentry k hk]
    exact hg.fresh _ (hhalf k hk)
  -- a block of buckets at a level is the same block, twice as long
  · obtain ⟨s, hs, hf⟩ := hg.live (k / 2) (hhalf k hk)
    refine ⟨s, by rw [hentry k hk]; exact hs, hf.sound, hf.chained,
      hf.level.trans (Nat.le_succ _), hf.load, fun j hj => ?_, fun x hx => ?_⟩
    · rw [hentry k hk, hentry j hj, hf.block _ (hhalf j hj), div_succ hf.level, div_succ hf.level]
    · rw [hf.side x hx, div_succ hf.level]
  · rw [hg.contents_eq, ← hids]
    rfl

/-! ## New sub tables for a range of entries -/

section Replace

variable {R : ℕ → Prop} [DecidablePred R] (hg : Good T t e) (hlevel : t'.chLevel = t.chLevel)
  (hexts : t'.chExts = some e')
  (hout : ∀ k < 2 ^ t.chLevel, ¬ R k → e' k = e k ∧ t'.subs (e k) = t.subs (e k))
  (hclosed : ∀ j < 2 ^ t.chLevel, ∀ k < 2 ^ t.chLevel, R j → ¬ R k → e j ≠ e k)
  (hnew : ∀ k < 2 ^ t.chLevel, R k → t.next ≤ e' k ∧ e' k < t'.next)

omit [DecidablePred R] in
include hg hlevel hexts hout hclosed hnew in
/-- The entries of the range get new sub tables, all others keep theirs. -/
theorem good_replace (hnext : t.next ≤ t'.next)
    (hlive : ∀ k < 2 ^ t.chLevel, R k → ∃ s, t'.subs (e' k) = some s ∧ Fits T t.chLevel e' k s) :
    Good T t' e' := by
  refine ⟨hexts, by rw [hlevel]; exact hg.level, fun k hk => ?_, fun k hk => ?_⟩
  · rw [hlevel] at hk
    by_cases hR : R k
    · exact (hnew k hk hR).2
    · rw [(hout k hk hR).1]
      exact (hg.fresh k hk).trans_le hnext
  · rw [hlevel] at hk ⊢
    by_cases hR : R k
    · exact hlive k hk hR
    · obtain ⟨s, hs, hf⟩ := hg.live k hk
      obtain ⟨hsame, hsub⟩ := hout k hk hR
      refine ⟨s, by rw [hsame, hsub]; exact hs, hf.sound, hf.chained, hf.level, hf.load,
        fun j hj => ?_, hf.side⟩
      rw [hsame, ← hf.block j hj]
      by_cases hRj : R j
      · have hfresh := hg.fresh k hk
        have hge := (hnew j hj hRj).1
        exact iff_of_false (by omega) (hclosed j hj k hk hRj hR)
      · rw [(hout j hj hRj).1]

include hg hlevel hexts hout hclosed hnew in
variable (t' e') in
/-- The elements change as those of the range do. -/
theorem contents_replace :
    t'.contents + ∑ id ∈ ((range (2 ^ t.chLevel)).filter R).image e, subElms t id =
      t.contents + ∑ id ∈ ((range (2 ^ t.chLevel)).filter R).image e', subElms t' id := by
  -- the buckets that were replaced, and the others
  have hsplit : ∀ f : ℕ → ℕ, ids f t.chLevel = ((range (2 ^ t.chLevel)).filter R).image f ∪
      ((range (2 ^ t.chLevel)).filter fun k => ¬ R k).image f := by
    intro f
    rw [← image_union, filter_union_filter_not_eq, ids]
  -- no sub table is named by both kinds: before because of `hclosed`
  have hdisj : Disjoint (((range (2 ^ t.chLevel)).filter R).image e)
      (((range (2 ^ t.chLevel)).filter fun k => ¬ R k).image e) := by
    rw [disjoint_left]
    intro id hid hid'
    simp only [mem_image, mem_filter, mem_range] at hid hid'
    obtain ⟨j, ⟨hj, hRj⟩, rfl⟩ := hid
    obtain ⟨k, ⟨hk, hRk⟩, heq⟩ := hid'
    exact hclosed j hj k hk hRj hRk heq.symm
  have hrest : ((range (2 ^ t.chLevel)).filter fun k => ¬ R k).image e' =
      ((range (2 ^ t.chLevel)).filter fun k => ¬ R k).image e := by
    apply image_congr
    intro k hk
    have hk' := mem_filter.1 hk
    exact (hout k (mem_range.1 hk'.1) hk'.2).1
  -- after because the new ids are fresh
  have hdisj' : Disjoint (((range (2 ^ t.chLevel)).filter R).image e')
      (((range (2 ^ t.chLevel)).filter fun k => ¬ R k).image e') := by
    rw [hrest, disjoint_left]
    intro id hid hid'
    simp only [mem_image, mem_filter, mem_range] at hid hid'
    obtain ⟨j, ⟨hj, hRj⟩, rfl⟩ := hid
    obtain ⟨k, ⟨hk, _⟩, heq⟩ := hid'
    have hge := (hnew j hj hRj).1
    have hlt := hg.fresh k hk
    omega
  -- the sub tables of the others are what they were
  have hsame : ∑ id ∈ ((range (2 ^ t.chLevel)).filter fun k => ¬ R k).image e', subElms t' id =
      ∑ id ∈ ((range (2 ^ t.chLevel)).filter fun k => ¬ R k).image e, subElms t id := by
    rw [hrest]
    apply sum_congr rfl
    intro id hid
    simp only [mem_image, mem_filter, mem_range] at hid
    obtain ⟨k, ⟨hk, hRk⟩, rfl⟩ := hid
    rw [subElms, subElms, (hout k hk hRk).2]
  have hnewEq : t'.contents = ∑ id ∈ ids e' t.chLevel, subElms t' id := by
    rw [ChTable.contents, hexts, Option.elim_some, hlevel]
  rw [hnewEq, hg.contents_eq, hsplit e, hsplit e', sum_union hdisj, sum_union hdisj', hsame]
  exact add_right_comm _ _ _ |>.trans (by
    rw [add_comm (∑ id ∈ _, subElms t' id), ← add_right_comm])

end Replace

/-! ## Split -/

theorem mem_block_iff {c idx : ℕ} (hc : 0 < c) :
    (idx * c ≤ k ∧ k < (idx + 1) * c) ↔ k / c = idx := by
  rw [← Nat.le_div_iff_mul_le hc, ← Nat.div_lt_iff_lt_mul hc]
  omega

/-- `ch_table_fill` writes the block of the index. -/
theorem fill_eq {idx id : ℕ} (hl : l ≤ t.chLevel) (hidx : idx < 2 ^ l) :
    chTableFill t e idx id l = .ok { t with
      chExts := some fun k => if k / 2 ^ (t.chLevel - l) = idx then id else e k } := by
  have hfit : (idx + 1) * 2 ^ (t.chLevel - l) ≤ 2 ^ t.chLevel := by
    calc (idx + 1) * 2 ^ (t.chLevel - l) ≤ 2 ^ l * 2 ^ (t.chLevel - l) :=
          Nat.mul_le_mul_right _ hidx
      _ = 2 ^ t.chLevel := by rw [← pow_add, Nat.add_sub_cancel' hl]
  rw [chTableFill, if_neg (by omega)]
  simp only [mem_block_iff (Nat.two_pow_pos (t.chLevel - l))]

/-- An index below the block count has a member. -/
theorem exists_block (idx : ℕ) (hl : l ≤ L) (hidx : idx < 2 ^ l) :
    idx * 2 ^ (L - l) < 2 ^ L ∧ idx * 2 ^ (L - l) / 2 ^ (L - l) = idx := by
  refine ⟨?_, Nat.mul_div_cancel _ (Nat.two_pow_pos _)⟩
  calc idx * 2 ^ (L - l) < 2 ^ l * 2 ^ (L - l) :=
        Nat.mul_lt_mul_of_pos_right hidx (Nat.two_pow_pos _)
    _ = 2 ^ L := by rw [← pow_add, Nat.add_sub_cancel' hl]

theorem numElm_le_of_le (hs : Sound s) (hs' : Sound s') (hle : s'.contents ≤ s.contents) :
    s'.csNumElm ≤ s.csNumElm := by
  rw [← hs.card, ← hs'.card]
  exact Multiset.card_le_card hle

/-- A block in halves. -/
theorem half_block (hl : l + 1 ≤ L) (k : ℕ) : k / 2 ^ (L - l) = k / 2 ^ (L - (l + 1)) / 2 := by
  rw [Nat.div_div_eq_div_mul, ← pow_succ]
  congr 2
  omega

section Grow

variable {low high : ChSub α} {id p n side : ℕ}

/-- The entries after a split. -/
def splitExts (t : ChTable α) (e : ℕ → ℕ) (p l : ℕ) (k : ℕ) : ℕ :=
  if k / 2 ^ (t.chLevel - (l + 1)) = 2 * p + 1 then t.next + 1
  else if k / 2 ^ (t.chLevel - (l + 1)) = 2 * p then t.next else e k

/-- The table after a split. -/
def splitTable (t : ChTable α) (e : ℕ → ℕ) (p l id : ℕ) (low high : ChSub α) : ChTable α :=
  chSubFree { (t.newSub low).newSub high with chExts := some (splitExts t e p l) } id

/-- Growing into two halves rewrites exactly the block of indices of the old sub table. -/
theorem growInto_eq (hg : Good T t e) (hl : s.csLocalLevel + 1 ≤ t.chLevel)
    (hlow : low.csLocalLevel = s.csLocalLevel + 1)
    (hhigh : high.csLocalLevel = s.csLocalLevel + 1) :
    growInto t h id s low high =
      .ok (splitTable t e (chH1 h s.csLocalLevel) s.csLocalLevel id low high) := by
  have hbits := hg.level
  have h64 : chH1Bits ≤ 64 := by decide
  have hp : chH1 h s.csLocalLevel < 2 ^ s.csLocalLevel := chH1_lt (by omega)
  have hpow : 2 ^ (s.csLocalLevel + 1) = 2 * 2 ^ s.csLocalLevel := by rw [pow_succ, Nat.mul_comm]
  have hleft : chH1 h s.csLocalLevel <<< 1 = 2 * chH1 h s.csLocalLevel := by
    rw [Nat.shiftLeft_eq, Nat.mul_comm]
  have hright : chH1 h s.csLocalLevel <<< 1 ||| 1 = 2 * chH1 h s.csLocalLevel + 1 := by
    rw [← Nat.shiftLeft_add_eq_or_of_lt (by omega), hleft]
  obtain ⟨t₁, ht₁⟩ : ∃ t₁ : ChTable α, t₁ = { (t.newSub low).newSub high with
      chExts := some fun k => if k / 2 ^ (t.chLevel - (s.csLocalLevel + 1)) =
        2 * chH1 h s.csLocalLevel then t.next else e k } := ⟨_, rfl⟩
  have hfirst : chTableFill ((t.newSub low).newSub high) e (2 * chH1 h s.csLocalLevel) t.next
      (s.csLocalLevel + 1) = .ok t₁ := by
    rw [ht₁]
    exact fill_eq hl (by omega)
  have hsecond : chTableFill t₁ t₁.exts (2 * chH1 h s.csLocalLevel + 1) (t.next + 1)
      (s.csLocalLevel + 1) = .ok { (t.newSub low).newSub high with
        chExts := some (splitExts t e (chH1 h s.csLocalLevel) s.csLocalLevel) } := by
    rw [ht₁]
    exact fill_eq hl (by omega)
  rw [growInto, hright, hleft, hlow, hhigh, hg.exts_eq, hfirst]
  exact congrArg (fun x => x >>= fun t₂ => pure (chSubFree t₂ id)) hsecond

theorem splitTable_subs (k : ℕ) : (splitTable t e p l id low high).subs k =
    if k = id then none else if k = t.next + 1 then some high
    else if k = t.next then some low else t.subs k := by
  simp only [splitTable, chSubFree, ChTable.newSub, Function.update_apply]

/-- The entries of the block point to the two new sub tables. -/
theorem splitExts_block (hl : l + 1 ≤ t.chLevel) (hR : k / 2 ^ (t.chLevel - l) = p) :
    (splitExts t e p l k = t.next ∧ k / 2 ^ (t.chLevel - (l + 1)) = 2 * p + 0) ∨
      (splitExts t e p l k = t.next + 1 ∧ k / 2 ^ (t.chLevel - (l + 1)) = 2 * p + 1) := by
  rw [half_block hl] at hR
  rw [splitExts]
  rcases Nat.lt_or_ge (2 * p) (k / 2 ^ (t.chLevel - (l + 1))) with hodd | heven
  · exact .inr ⟨if_pos (by omega), by omega⟩
  · exact .inl ⟨by rw [if_neg (by omega), if_pos (by omega)], by omega⟩

/-- The entries outside of the block stay. -/
theorem splitExts_other (hl : l + 1 ≤ t.chLevel) (hR : k / 2 ^ (t.chLevel - l) ≠ p) :
    splitExts t e p l k = e k := by
  rw [half_block hl] at hR
  rw [splitExts, if_neg (by omega), if_neg (by omega)]

theorem splitExts_eq_low (hg : Good T t e) (hk : k < 2 ^ t.chLevel) :
    splitExts t e p l k = t.next ↔ k / 2 ^ (t.chLevel - (l + 1)) = 2 * p + 0 := by
  have hlt := hg.fresh k hk
  rw [splitExts]
  split_ifs <;> omega

theorem splitExts_eq_high (hg : Good T t e) (hk : k < 2 ^ t.chLevel) :
    splitExts t e p l k = t.next + 1 ↔ k / 2 ^ (t.chLevel - (l + 1)) = 2 * p + 1 := by
  have hlt := hg.fresh k hk
  rw [splitExts]
  split_ifs <;> omega

/-- The block of the old sub table is where the two new ones are. -/
theorem image_splitExts (hl : l + 1 ≤ t.chLevel) (hp : p < 2 ^ l) :
    ((range (2 ^ t.chLevel)).filter fun k => k / 2 ^ (t.chLevel - l) = p).image
      (splitExts t e p l) = {t.next, t.next + 1} := by
  have hpow : 2 ^ (l + 1) = 2 * 2 ^ l := by rw [pow_succ, Nat.mul_comm]
  ext id
  simp only [mem_image, mem_filter, mem_range, mem_insert, mem_singleton]
  constructor
  · rintro ⟨k, ⟨hk, hR⟩, rfl⟩
    exact (splitExts_block hl hR).imp And.left And.left
  · rintro (rfl | rfl)
    · obtain ⟨hk, hdiv⟩ := exists_block (2 * p) hl (by omega)
      refine ⟨_, ⟨hk, by rw [half_block hl, hdiv]; omega⟩, ?_⟩
      rw [splitExts, hdiv, if_neg (by omega), if_pos rfl]
    · obtain ⟨hk, hdiv⟩ := exists_block (2 * p + 1) hl (by omega)
      refine ⟨_, ⟨hk, by rw [half_block hl, hdiv]; omega⟩, ?_⟩
      rw [splitExts, hdiv, if_pos rfl]

section

variable (hg : Good T t e) (hf : Fits T t.chLevel e i s) (hi : i < 2 ^ t.chLevel)
  (hl : s.csLocalLevel + 1 ≤ t.chLevel) (hp : i / 2 ^ (t.chLevel - s.csLocalLevel) = p)

include hf hp

theorem Fits.eq_iff_block (hk : k < 2 ^ t.chLevel) :
    e k = e i ↔ k / 2 ^ (t.chLevel - s.csLocalLevel) = p := by
  rw [hf.block k hk, hp]

theorem Fits.ne_of_block (hj : j < 2 ^ t.chLevel) (hk : k < 2 ^ t.chLevel)
    (hRj : j / 2 ^ (t.chLevel - s.csLocalLevel) = p)
    (hRk : k / 2 ^ (t.chLevel - s.csLocalLevel) ≠ p) : e j ≠ e k := by
  intro heq
  rw [(hf.eq_iff_block hp hj).2 hRj] at heq
  exact hRk ((hf.eq_iff_block hp hk).1 heq.symm)

include hi in
theorem Fits.image_block :
    ((range (2 ^ t.chLevel)).filter fun k => k / 2 ^ (t.chLevel - s.csLocalLevel) = p).image e =
      {e i} := by
  ext id
  simp only [mem_image, mem_filter, mem_range, mem_singleton]
  constructor
  · rintro ⟨k, ⟨hk, hR⟩, rfl⟩
    exact (hf.eq_iff_block hp hk).2 hR
  · rintro rfl
    exact ⟨i, ⟨hi, hp⟩, rfl⟩

include hg hl

/-- A half of the sub table fits its half of the block. -/
theorem fits_half (hsound : Sound s') (hchained : Chained T s')
    (hlevel : s'.csLocalLevel = s.csLocalLevel + 1) (htomb : s'.csNumTomb = 0)
    (hle : s'.contents ≤ s.contents)
    (hside : ∀ x ∈ s'.contents, chH1 (T.tHash x) (s.csLocalLevel + 1) % 2 = side)
    (hblock : ∀ j < 2 ^ t.chLevel, (splitExts t e p s.csLocalLevel j = n ↔
      j / 2 ^ (t.chLevel - (s.csLocalLevel + 1)) = 2 * p + side))
    (hk : k < 2 ^ t.chLevel) (hkside : k / 2 ^ (t.chLevel - (s.csLocalLevel + 1)) = 2 * p + side) :
    Fits T t.chLevel (splitExts t e p s.csLocalLevel) k s' := by
  have hbits := hg.level
  have h64 : chH1Bits ≤ 64 := by decide
  have hn : splitExts t e p s.csLocalLevel k = n := (hblock k hk).2 hkside
  have hnum := numElm_le_of_le hf.sound hsound hle
  have hload := hf.load
  refine ⟨hsound, hchained, hlevel.trans_le hl, by omega, fun j hj => ?_, fun x hx => ?_⟩
  · rw [hn, hblock j hj, hlevel, hkside]
  · -- one more of the upper bits, and it is the side
    have hold := hf.side x (Multiset.mem_of_le hle hx)
    have hmod := hside x hx
    have hup := chH1_div (h := T.tHash x) (show s.csLocalLevel ≤ s.csLocalLevel + 1 by omega)
      (by omega)
    rw [hp] at hold
    rw [show s.csLocalLevel + 1 - s.csLocalLevel = 1 by omega, pow_one, hold] at hup
    rw [hlevel, hkside]
    omega

variable (hsplit : Split T s low high)

include hsplit

/-- The entries of the block point to a new sub table that fits and has no tombs. -/
theorem splitTable_live (hk : k < 2 ^ t.chLevel) (hi : i < 2 ^ t.chLevel)
    (hR : k / 2 ^ (t.chLevel - s.csLocalLevel) = p) :
    ∃ s', (splitTable t e p s.csLocalLevel (e i) low high).subs
        (splitExts t e p s.csLocalLevel k) = some s' ∧
      Fits T t.chLevel (splitExts t e p s.csLocalLevel) k s' ∧
      s'.csLocalLevel = s.csLocalLevel + 1 ∧ s'.csNumElm ≤ s.csNumElm ∧ s'.csNumTomb = 0 := by
  have hfresh := hg.fresh i hi
  have hlow : low.contents ≤ s.contents := by
    rw [← hsplit.elms]
    exact Multiset.le_add_right _ _
  have hhigh : high.contents ≤ s.contents := by
    rw [← hsplit.elms]
    exact Multiset.le_add_left _ _
  rcases splitExts_block (e := e) hl hR with ⟨hv, hlo⟩ | ⟨hv, hhi⟩
  · refine ⟨low, ?_, fits_half hg hf hl hp hsplit.soundLow hsplit.chainedLow hsplit.levelLow
      hsplit.tombLow hlow hsplit.sideLow (fun j hj => splitExts_eq_low hg hj) hk hlo,
      hsplit.levelLow, numElm_le_of_le hf.sound hsplit.soundLow hlow, hsplit.tombLow⟩
    rw [splitTable_subs, hv, if_neg (by omega), if_neg (by omega), if_pos rfl]
  · refine ⟨high, ?_, fits_half hg hf hl hp hsplit.soundHigh hsplit.chainedHigh hsplit.levelHigh
      hsplit.tombHigh hhigh hsplit.sideHigh (fun j hj => splitExts_eq_high hg hj) hk hhi,
      hsplit.levelHigh, numElm_le_of_le hf.sound hsplit.soundHigh hhigh, hsplit.tombHigh⟩
    rw [splitTable_subs, hv, if_neg (by omega), if_pos rfl]

omit hsplit

theorem splitTable_other (hk : k < 2 ^ t.chLevel)
    (hR : k / 2 ^ (t.chLevel - s.csLocalLevel) ≠ p) :
    splitExts t e p s.csLocalLevel k = e k ∧
      (splitTable t e p s.csLocalLevel (e i) low high).subs (e k) = t.subs (e k) := by
  have hlt := hg.fresh k hk
  have hne := (hf.eq_iff_block hp hk).not.2 hR
  rw [splitTable_subs, if_neg hne, if_neg (by omega), if_neg (by omega)]
  exact ⟨splitExts_other hl hR, rfl⟩

omit hf hp hg in
theorem splitExts_fresh (hR : k / 2 ^ (t.chLevel - s.csLocalLevel) = p) :
    t.next ≤ splitExts t e p s.csLocalLevel k ∧
      splitExts t e p s.csLocalLevel k < t.next + 1 + 1 := by
  rcases splitExts_block (e := e) hl hR with ⟨hv, -⟩ | ⟨hv, -⟩ <;> omega

include hsplit in
/-- The two new sub tables have the elements of the old one. -/
theorem contents_splitTable (hi : i < 2 ^ t.chLevel) (hid : t.subs (e i) = some s)
    (hplt : p < 2 ^ s.csLocalLevel) :
    (splitTable t e p s.csLocalLevel (e i) low high).contents = t.contents := by
  have hfresh := hg.fresh i hi
  have hsum := contents_replace (R := fun k => k / 2 ^ (t.chLevel - s.csLocalLevel) = p)
    (splitTable t e p s.csLocalLevel (e i) low high) (splitExts t e p s.csLocalLevel) hg rfl rfl
    (fun k hk hR => splitTable_other hg hf hl hp hk hR)
    (fun j hj k hk hRj hRk => hf.ne_of_block hp hj hk hRj hRk)
    (fun k _ hR => splitExts_fresh hl hR)
  have hlowElms :
      subElms (splitTable t e p s.csLocalLevel (e i) low high) t.next = low.contents := by
    apply subElms_of_some
    rw [splitTable_subs, if_neg (by omega), if_neg (by omega), if_pos rfl]
  have hhighElms :
      subElms (splitTable t e p s.csLocalLevel (e i) low high) (t.next + 1) = high.contents := by
    apply subElms_of_some
    rw [splitTable_subs, if_neg (by omega), if_pos rfl]
  rw [hf.image_block hi hp, image_splitExts hl hplt, sum_singleton, sum_pair (by omega), hlowElms,
    hhighElms, hsplit.elms, subElms_of_some hid] at hsum
  exact add_right_cancel hsum

end

/-- A split of the sub table of the hash. -/
theorem good_growInto (hg : Good T t e) (hid : t.subs (e (chH1 h t.chLevel)) = some s)
    (hf : Fits T t.chLevel e (chH1 h t.chLevel) s) (hl : s.csLocalLevel + 1 ≤ t.chLevel)
    (hsplit : Split T s low high) :
    Ends (growInto t h (e (chH1 h t.chLevel)) s low high) fun t' =>
      (∃ e', Good T t' e' ∧ ∃ s', t'.subs (e' (chH1 h t.chLevel)) = some s' ∧
        s'.csNumElm + s'.csNumTomb < loadLimit + s'.csLocalLevel ∧ s'.csNumTomb = 0) ∧
      t'.chLevel = t.chLevel ∧ t'.contents = t.contents ∧ t'.ccNumElm = t.ccNumElm := by
  have hbits := hg.level
  have h64 : chH1Bits ≤ 64 := by decide
  have hi := hg.index_lt h
  have hp := chH1_div (h := h) hf.level (by omega)
  have hplt : chH1 h s.csLocalLevel < 2 ^ s.csLocalLevel := chH1_lt (by omega)
  rw [growInto_eq hg hl hsplit.levelLow hsplit.levelHigh, ends_ok_iff]
  refine ⟨⟨splitExts t e (chH1 h s.csLocalLevel) s.csLocalLevel, ?_, ?_⟩, rfl,
    contents_splitTable hg hf hl hp hsplit hi hid hplt, rfl⟩
  · refine good_replace (R := fun k => k / 2 ^ (t.chLevel - s.csLocalLevel) =
      chH1 h s.csLocalLevel) hg rfl rfl (fun k hk hR => splitTable_other hg hf hl hp hk hR)
      (fun j hj k hk hRj hRk => hf.ne_of_block hp hj hk hRj hRk)
      (fun k _ hR => splitExts_fresh hl hR) ?_ fun k hk hR => ?_
    · simp only [splitTable, chSubFree, ChTable.newSub]
      omega
    · obtain ⟨s', hs', hfits, -⟩ := splitTable_live hg hf hl hp hsplit hk hi hR
      exact ⟨s', hs', hfits⟩
  · -- the sub table of the hash has room for one more element
    obtain ⟨s', hs', -, hlevel, hnum, htomb⟩ := splitTable_live hg hf hl hp hsplit hi hi hp
    have hload := hf.load
    exact ⟨s', hs', by omega, htomb⟩

end Grow

/-! ## Merge -/

theorem xor_one_div (a : ℕ) : (a ^^^ 1) / 2 = a / 2 := by
  rw [Nat.xor_div_two]
  exact Nat.xor_zero _

theorem xor_one_ne (a : ℕ) : a ^^^ 1 ≠ a := by
  have hmod : (a ^^^ 1) % 2 = (a + 1) % 2 := Nat.xor_mod_two_eq
  intro heq
  rw [heq] at hmod
  omega

theorem eq_or_xor_one {a n : ℕ} : n / 2 = a / 2 ↔ n = a ∨ n = a ^^^ 1 := by
  have hne := xor_one_ne a
  have hdiv := xor_one_div a
  omega

/-- The index of the buddy. -/
theorem buddy_div :
    (i ^^^ 2 ^ (L - l)) / 2 ^ (L - l) = i / 2 ^ (L - l) ^^^ 1 := by
  rw [Nat.xor_div_two_pow, Nat.div_self (Nat.two_pow_pos _)]

theorem buddy_lt (hi : i < 2 ^ L) (hl : 0 < l) (hlL : l ≤ L) : i ^^^ 2 ^ (L - l) < 2 ^ L :=
  Nat.xor_lt_two_pow hi (Nat.pow_lt_pow_right (by omega) (by omega))

section Compact

variable {i₀ i₁ id bid p : ℕ}

/-- The entries after a merge. -/
def mergeExts (t : ChTable α) (e : ℕ → ℕ) (p l : ℕ) (k : ℕ) : ℕ :=
  if k / 2 ^ (t.chLevel - l) = p then t.next else e k

/-- The table after a merge of two sub tables. -/
def mergeTable (t : ChTable α) (e : ℕ → ℕ) (p l id bid : ℕ) (s' : ChSub α) : ChTable α :=
  { chSubFree (chSubFree (t.newSub s') bid) id with chExts := some (mergeExts t e p l) }

theorem mergeTable_subs (k : ℕ) : (mergeTable t e p l id bid s').subs k =
    if k = id then none else if k = bid then none
    else if k = t.next then some s' else t.subs k := by
  simp only [mergeTable, chSubFree, ChTable.newSub, Function.update_apply]

theorem mergeExts_fresh (hR : k / 2 ^ (t.chLevel - l) = p) :
    t.next ≤ mergeExts t e p l k ∧ mergeExts t e p l k < t.next + 1 := by
  rw [mergeExts, if_pos hR]
  omega

/-- The new sub table takes the whole block. -/
theorem image_mergeExts (hi : i₀ < 2 ^ t.chLevel) (hp : i₀ / 2 ^ (t.chLevel - l) = p) :
    ((range (2 ^ t.chLevel)).filter fun k => k / 2 ^ (t.chLevel - l) = p).image
      (mergeExts t e p l) = {t.next} := by
  ext id
  simp only [mem_image, mem_filter, mem_range, mem_singleton]
  constructor
  · rintro ⟨k, ⟨hk, hR⟩, rfl⟩
    rw [mergeExts, if_pos hR]
  · rintro rfl
    exact ⟨i₀, ⟨hi, hp⟩, by rw [mergeExts, if_pos hp]⟩

section

variable (hg : Good T t e) (hi : i₀ < 2 ^ t.chLevel)
  (hi₁ : i₀ ^^^ 2 ^ (t.chLevel - s.csLocalLevel) = i₁) (hf : Fits T t.chLevel e i₀ s)
  (hpos : 0 < s.csLocalLevel) (hfb : Fits T t.chLevel e i₁ b)
  (hlevel : b.csLocalLevel = s.csLocalLevel) (hmerge : Merged T s b s')
  (hp : i₀ / 2 ^ (t.chLevel - s'.csLocalLevel) = p)

include hi₁ hf hpos hfb hlevel hmerge hp

/-- The block of the new sub table is that of the old one and that of its buddy. -/
theorem merge_block (hk : k < 2 ^ t.chLevel) :
    k / 2 ^ (t.chLevel - s'.csLocalLevel) = p ↔ e k = e i₀ ∨ e k = e i₁ := by
  have hl' : s.csLocalLevel = s'.csLocalLevel + 1 := by
    have := hmerge.level
    omega
  have hlL := hf.level
  have hdiv₁ : i₁ / 2 ^ (t.chLevel - s.csLocalLevel) =
      i₀ / 2 ^ (t.chLevel - s.csLocalLevel) ^^^ 1 := by
    rw [← hi₁]
    exact buddy_div
  rw [hf.block k hk, hfb.block k hk, hlevel, hdiv₁, ← hp, half_block (by omega) k,
    half_block (by omega) i₀, ← hl']
  exact eq_or_xor_one

theorem ne_of_merge_block (hj : j < 2 ^ t.chLevel) (hk : k < 2 ^ t.chLevel)
    (hRj : j / 2 ^ (t.chLevel - s'.csLocalLevel) = p)
    (hRk : k / 2 ^ (t.chLevel - s'.csLocalLevel) ≠ p) : e j ≠ e k := by
  intro heq
  have hin := (merge_block hi₁ hf hpos hfb hlevel hmerge hp hj).1 hRj
  rw [heq] at hin
  exact hRk ((merge_block hi₁ hf hpos hfb hlevel hmerge hp hk).2 hin)

include hi in
theorem image_merge_block :
    ((range (2 ^ t.chLevel)).filter fun k => k / 2 ^ (t.chLevel - s'.csLocalLevel) = p).image e =
      {e i₀, e i₁} := by
  have hbuddy : i₁ < 2 ^ t.chLevel := hi₁ ▸ buddy_lt hi hpos hf.level
  ext id
  simp only [mem_image, mem_filter, mem_range, mem_insert, mem_singleton]
  constructor
  · rintro ⟨k, ⟨hk, hR⟩, rfl⟩
    exact (merge_block hi₁ hf hpos hfb hlevel hmerge hp hk).1 hR
  · rintro (rfl | rfl)
    · exact ⟨i₀, ⟨hi, hp⟩, rfl⟩
    · exact ⟨i₁, ⟨hbuddy,
        (merge_block hi₁ hf hpos hfb hlevel hmerge hp hbuddy).2 (.inr rfl)⟩, rfl⟩

include hg

theorem mergeTable_other (hk : k < 2 ^ t.chLevel)
    (hR : k / 2 ^ (t.chLevel - s'.csLocalLevel) ≠ p) :
    mergeExts t e p s'.csLocalLevel k = e k ∧
      (mergeTable t e p s'.csLocalLevel (e i₀) (e i₁) s').subs (e k) = t.subs (e k) := by
  have hlt := hg.fresh k hk
  have hout := (merge_block hi₁ hf hpos hfb hlevel hmerge hp hk).not.1 hR
  push Not at hout
  rw [mergeTable_subs, if_neg hout.1, if_neg hout.2, if_neg (by omega), mergeExts, if_neg hR]
  exact ⟨rfl, rfl⟩

/-- The new sub table fits the block. -/
theorem fits_merge (hload : s.csNumElm + b.csNumElm ≤ loadLimit)
    (hR : k / 2 ^ (t.chLevel - s'.csLocalLevel) = p) :
    Fits T t.chLevel (mergeExts t e p s'.csLocalLevel) k s' := by
  have hbits := hg.level
  have h64 : chH1Bits ≤ 64 := by decide
  have hl' : s.csLocalLevel = s'.csLocalLevel + 1 := by
    have := hmerge.level
    omega
  have hlL := hf.level
  have htomb := hmerge.tomb
  have hnum : s'.csNumElm = s.csNumElm + b.csNumElm := by
    rw [← hf.sound.card, ← hfb.sound.card, ← hmerge.sound.card, hmerge.elms, Multiset.card_add]
  refine ⟨hmerge.sound, hmerge.chained, by omega, by omega, fun j hj => ?_, fun x hx => ?_⟩
  · have hlt := hg.fresh j hj
    rw [mergeExts, mergeExts, if_pos hR, hR]
    split_ifs with hRj
    · exact iff_of_true rfl hRj
    · exact iff_of_false (by omega) hRj
  · -- the bit that is dropped is the one in which the buddies differ
    have hup := chH1_div (h := T.tHash x) (show s'.csLocalLevel ≤ s.csLocalLevel by omega)
      (by omega)
    rw [show s.csLocalLevel - s'.csLocalLevel = 1 by omega, pow_one] at hup
    rw [hR, ← hup, ← hp, half_block (by omega), ← hl']
    rw [hmerge.elms, Multiset.mem_add] at hx
    rcases hx with hx | hx
    · rw [hf.side x hx]
    · have hside := hfb.side x hx
      rw [hlevel, ← hi₁, buddy_div] at hside
      rw [hside, xor_one_div]

include hi in
omit hfb hlevel hmerge hp in
variable (s' p) in
theorem mergeTable_next : (mergeTable t e p s'.csLocalLevel (e i₀) (e i₁) s').subs t.next =
    some s' := by
  have hfresh := hg.fresh i₀ hi
  have hfreshBuddy := hg.fresh i₁ (hi₁ ▸ buddy_lt hi hpos hf.level)
  rw [mergeTable_subs, if_neg (by omega), if_neg (by omega), if_pos rfl]

include hi in
/-- The new sub table has the elements of both. -/
theorem contents_mergeTable (hid : t.subs (e i₀) = some s) (hbid : t.subs (e i₁) = some b) :
    (mergeTable t e p s'.csLocalLevel (e i₀) (e i₁) s').contents = t.contents := by
  have hne : e i₀ ≠ e i₁ := by
    intro heq
    have hsame := (hf.block i₁ (hi₁ ▸ buddy_lt hi hpos hf.level)).1 heq.symm
    rw [← hi₁, buddy_div] at hsame
    exact xor_one_ne _ hsame
  have hsum := contents_replace (R := fun k => k / 2 ^ (t.chLevel - s'.csLocalLevel) = p)
    (mergeTable t e p s'.csLocalLevel (e i₀) (e i₁) s') (mergeExts t e p s'.csLocalLevel) hg rfl rfl
    (fun k hk hR => mergeTable_other hg hi₁ hf hpos hfb hlevel hmerge hp hk hR)
    (fun j hj k hk hRj hRk => ne_of_merge_block hi₁ hf hpos hfb hlevel hmerge hp hj hk hRj hRk)
    (fun k _ hR => mergeExts_fresh hR)
  have hnewElms :=
    subElms_of_some (mergeTable_next s' p hg hi hi₁ hf hpos)
  rw [image_merge_block hi hi₁ hf hpos hfb hlevel hmerge hp, image_mergeExts hi hp, sum_singleton,
    sum_pair hne, hnewElms, hmerge.elms, subElms_of_some hid, subElms_of_some hbid] at hsum
  exact add_right_cancel hsum

end

/-- A merge of the sub table of the hash with its buddy. -/
theorem good_compactInto (hg : Good T t e) (hi₀ : chH1 h t.chLevel = i₀)
    (hi₁ : i₀ ^^^ 2 ^ (t.chLevel - s.csLocalLevel) = i₁)
    (hid : t.subs (e i₀) = some s) (hf : Fits T t.chLevel e i₀ s) (hpos : 0 < s.csLocalLevel)
    (hbid : t.subs (e i₁) = some b) (hfb : Fits T t.chLevel e i₁ b)
    (hlevel : b.csLocalLevel = s.csLocalLevel) (hload : s.csNumElm + b.csNumElm ≤ loadLimit)
    (hmerge : Merged T s b s') :
    Ends (compactInto t h (e i₀) (e i₁) s') fun t' =>
      (∃ e', Good T t' e' ∧ t'.subs (e' i₀) = some s') ∧ t'.chLevel = t.chLevel ∧
        t'.contents = t.contents ∧ t'.ccNumElm = t.ccNumElm := by
  have hbits := hg.level
  have h64 : chH1Bits ≤ 64 := by decide
  have hi : i₀ < 2 ^ t.chLevel := hi₀ ▸ hg.index_lt h
  have hl'L : s'.csLocalLevel ≤ t.chLevel := by
    have hl' := hmerge.level
    have hlL := hf.level
    omega
  have hp : i₀ / 2 ^ (t.chLevel - s'.csLocalLevel) = chH1 h s'.csLocalLevel := by
    rw [← hi₀]
    exact chH1_div hl'L (by omega)
  have hplt : chH1 h s'.csLocalLevel < 2 ^ s'.csLocalLevel := chH1_lt (by omega)
  rw [compactInto, hg.exts_eq, fill_eq (t := chSubFree (chSubFree (t.newSub s') (e i₁)) (e i₀))
    hl'L hplt, ends_ok_iff]
  generalize chH1 h s'.csLocalLevel = p at *
  have hnew := mergeTable_next s' p hg hi hi₁ hf hpos
  refine ⟨⟨mergeExts t e p s'.csLocalLevel, good_replace
    (R := fun k => k / 2 ^ (t.chLevel - s'.csLocalLevel) = p) hg rfl rfl
    (fun k hk hR => mergeTable_other hg hi₁ hf hpos hfb hlevel hmerge hp hk hR)
    (fun j hj k hk hRj hRk => ne_of_merge_block hi₁ hf hpos hfb hlevel hmerge hp hj hk hRj hRk)
    (fun k _ hR => mergeExts_fresh hR) (Nat.le_succ _) fun k hk hR => ?_, ?_⟩, rfl,
    contents_mergeTable hg hi hi₁ hf hpos hfb hlevel hmerge hp hid hbid, rfl⟩
  · refine ⟨s', ?_, fits_merge hg hi₁ hf hpos hfb hlevel hmerge hp hload hR⟩
    rw [mergeExts, if_pos hR]
    exact hnew
  · rw [mergeExts, if_pos hp]
    exact hnew

end Compact

end Bgpd.Chash
