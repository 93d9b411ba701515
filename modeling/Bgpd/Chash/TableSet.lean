import Bgpd.Chash.TableRun

/-!
# The Hash Table as a Set

For an equality that agrees with the hash, a run of insertions and removals is a run on a finite
set: the table holds what was inserted and not removed since, no two elements are equal, a lookup
finds the element that is equal to the key, and the number of elements is right. No operation of a
run can fail to end.

## Main results

- `probing_ends`: exact numbers, an open group, and loops that end
- `set_of_runs`: the public functions are those of a set
-/

namespace Bgpd.Chash

open Bgpd.Lib Finset

variable {α : Type} {T : ChType α} {t t' : ChTable α} {stored : Multiset α} {e : ℕ → ℕ} {i : ℕ}

/-! ## Probing -/

/-- What every sub table of a run has: `cs_num_elm` is the number of slots in use, `cs_num_tomb`
    that of the tombstones, some group was never full, and all loops over the groups end. -/
structure ProbingEnds (T : ChType α) (s : ChSub α) : Prop where
  numElm : s.csNumElm = ∑ b ∈ range chH2Size, usedCount (s.ceTable b).cgMeta
  numTomb : s.csNumTomb = ∑ b ∈ range chH2Size, tombCount (s.ceTable b).cgMeta
  hasOpen : ∃ b < chH2Size, everFull (s.ceTable b).cgMeta = false
  locate : ∀ h eq, ∃ r, chSubLocate s h eq = .ok r
  insert : ∀ h x, ∃ r, chSubInsert T s h x = .ok r
  remove : ∀ h x, ∃ r, chSubRemove T s h x = .ok r
  split : ∃ r, chSubSplit T s = .ok r

theorem Fits.probingEnds {L : ℕ} {s : ChSub α} (hf : Fits T L e i s) (hL : L < chH1Bits) :
    ProbingEnds T s := by
  have hload := hf.load_lt hL
  refine ⟨hf.sound.numElm, hf.sound.numTomb, hf.hasOpen hL, fun h eq => ?_, fun h x => ?_,
    fun h x => ?_, ?_⟩
  · exact (chSubLocate_ends (T := T) hf.sound (hf.hasOpen hL)).exists_ok
  · exact (chSubInsert_ends hf.sound hload x).exists_ok
  · exact (chSubRemove_ends hf.sound (hf.hasOpen hL) x).exists_ok
  · exact (chSubSplit_ends hf.sound (by omega)).exists_ok

/-! ## Distinct elements -/

/-- `t_equal` is an equivalence, and equal elements have the same hash. -/
structure ChType.Lawful (T : ChType α) : Prop where
  refl : ∀ x, T.tEqual x x = true
  symm : ∀ x y, T.tEqual x y = true → T.tEqual y x = true
  trans : ∀ x y z, T.tEqual x y = true → T.tEqual y z = true → T.tEqual x z = true
  hash : ∀ x y, T.tEqual x y = true → T.tHash x = T.tHash y

theorem distinct_zero : Distinct T 0 := by
  intro x y rest h
  exact absurd h.symm (Multiset.cons_ne_zero)

theorem ChType.Lawful.comm (hT : T.Lawful) (x y : α) : T.tEqual x y = T.tEqual y x := by
  rw [Bool.eq_iff_iff]
  exact ⟨hT.symm x y, hT.symm y x⟩

theorem distinct_cons (hT : T.Lawful) {m : Multiset α} {x : α} (hm : Distinct T m)
    (hx : ∀ y ∈ m, T.tEqual y x = false) : Distinct T (x ::ₘ m) := by
  intro y z rest h
  rcases Multiset.cons_eq_cons.1 h with ⟨rfl, rfl⟩ | ⟨_, m', rfl, hm'⟩
  · exact hx z (Multiset.mem_cons_self z rest)
  · rcases Multiset.cons_eq_cons.1 hm' with ⟨rfl, rfl⟩ | ⟨_, m'', _, rfl⟩
    · rw [hT.comm]
      exact hx y (Multiset.mem_cons_self y _)
    · exact hm y z m'' rfl

/-- Two members of distinct elements that are equal are the same. -/
theorem Distinct.eq_of_mem {m : Multiset α} {x y : α} (hm : Distinct T m) (hx : x ∈ m) (hy : y ∈ m)
    (heq : T.tEqual y x = true) : x = y := by
  by_contra hne
  obtain ⟨m', rfl⟩ := Multiset.exists_cons_of_mem hx
  obtain ⟨m'', rfl⟩ := Multiset.exists_cons_of_mem
    ((Multiset.mem_cons.1 hy).resolve_left (Ne.symm hne))
  rw [hm x y m'' rfl] at heq
  cases heq

/-- No run stores two equal elements. -/
theorem Reach.distinct [DecidableEq α] (hT : T.Lawful) (hr : Reach T t stored) :
    Distinct T stored := by
  induction hr with
  | init => exact distinct_zero
  | @insert t t' stored mem elm hrun hstep ih =>
    obtain ⟨hok, helms, _⟩ := hrun.ok
    have hins := ends_eq (chInsert_ends mem hok elm) hstep
    refine distinct_cons hT ih fun y hy => ?_
    rw [← helms] at hy
    cases heq : T.tEqual y elm with
    | false => rfl
    | true =>
      rw [(hins.new rfl).2 y hy (hT.hash y elm heq)] at heq
      cases heq
  | found _ _ _ _ _ ih => exact ih
  | failed _ _ _ _ ih => exact ih
  | remove _ _ x _ _ ih => exact ih.of_le (Multiset.erase_le x _)
  | missing _ _ _ _ ih => exact ih

/-- A new element can be inserted while the index can still grow. -/
theorem Reach.exists_insert [DecidableEq α] (hT : T.Lawful) (hr : Reach T t stored) (x : α)
    (hx : ∀ y ∈ stored, T.tEqual y x = false) (hlevel : t.chLevel + 1 < chH1Bits) :
    ∃ t', chInsert T (fun _ => true) t (T.tHash x) x = .ok (t', .new) ∧
      Reach T t' (x ::ₘ stored) := by
  obtain ⟨hok, helms, _⟩ := hr.ok
  obtain ⟨r, hstep, hins⟩ := chInsert_ends (fun _ => true) hok x
  obtain ⟨t', r⟩ := r
  cases r with
  | new => exact ⟨t', hstep, hr.insert _ x hstep⟩
  | found y =>
    obtain ⟨_, hy, heq⟩ := hins.found y rfl
    rw [helms] at hy
    rw [hx y hy] at heq
    cases heq
  | failed =>
    refine absurd rfl (hins.success ⟨fun _ => rfl, hlevel, ?_⟩)
    rw [helms]
    exact hr.distinct hT

/-! ## Every run -/

/-- For every equality and every hash function, and in every run: the sub tables have exact numbers
    and an open group, so the loops of the lookups, of insertion, removal and split end; and every
    operation that may come next ends as well, with the splits and merges it makes. -/
theorem probing_ends [DecidableEq α] (T : ChType α) (t : ChTable α) (stored : Multiset α)
    (hr : Reach T t stored) :
    (∀ e, t.chExts = some e → ∀ i < 2 ^ t.chLevel, ∃ s, t.subs (e i) = some s ∧ ProbingEnds T s) ∧
    (∀ mem x, ∃ r, chInsert T mem t (T.tHash x) x = .ok r) ∧
    (∀ mem x, ∃ r, chRemove T mem t (T.tHash x) x = .ok r) ∧
    (∀ h eq, ∃ r, chLocate t h eq = .ok r) := by
  obtain ⟨hok, _, _⟩ := hr.ok
  refine ⟨fun e he i hi => ?_, fun mem x => ?_, fun mem x => ?_, fun h eq => ?_⟩
  · have hsome : t.chExts ≠ none := by
      rw [he]
      exact Option.some_ne_none e
    obtain ⟨e', hg⟩ := hok.resolve_left hsome
    have heq : e' = e := Option.some.inj (hg.exts.symm.trans he)
    subst heq
    obtain ⟨s, hs, hf⟩ := hg.live i hi
    exact ⟨s, hs, hf.probingEnds hg.level⟩
  · exact (chInsert_ends mem hok x).exists_ok
  · exact (chRemove_ends mem hok x).exists_ok
  · exact (chLocate_ends hok h eq).exists_ok

/-- A type of numbers, all with the hash 0. -/
def constType : ChType ℕ := ⟨fun x y => x == y, fun _ => 0⟩

theorem lawful_constType : constType.Lawful :=
  ⟨fun x => beq_self_eq_true x, fun x y h => by rw [beq_iff_eq.1 h]; exact beq_self_eq_true y,
    fun x y z h h' => by rw [beq_iff_eq.1 h]; exact h', fun _ _ _ => rfl⟩

/-- A table after two insertions. -/
theorem exists_pair : ∃ t, Reach constType t {6, 5} := by
  have hbits : 2 < chH1Bits := by decide
  obtain ⟨t₁, hstep, hr₁⟩ := Reach.init.exists_insert lawful_constType 5 (by simp) (by decide)
  -- the first insertion makes a table of two entries
  have hlevel : t₁.chLevel = 1 :=
    (ends_eq (chInsert_ends _ (.inl rfl) 5) hstep).levelInit rfl (by simp)
  obtain ⟨t₂, -, hr₂⟩ := hr₁.exists_insert lawful_constType 6 (by decide) (by omega)
  exact ⟨t₂, hr₂⟩

/-- A table with elements has entries. -/
theorem Reach.exists_good [DecidableEq α] (hr : Reach T t stored) (hne : stored ≠ 0) :
    ∃ e, Good T t e := by
  obtain ⟨hok, helms, -⟩ := hr.ok
  refine hok.resolve_left fun hnone => hne ?_
  rw [← helms, contents_of_none hnone]

theorem probing_ends_pair : ∃ t, Reach constType t {6, 5} ∧
    (∃ e s, t.chExts = some e ∧ t.subs (e 0) = some s ∧ ProbingEnds constType s) ∧
      ∃ r, chInsert constType (fun _ => true) t (constType.tHash 3) 3 = .ok r := by
  obtain ⟨t, hr⟩ := exists_pair
  obtain ⟨e, hg⟩ := hr.exists_good (by decide)
  obtain ⟨hsubs, hinsert, -, -⟩ := probing_ends constType t {6, 5} hr
  obtain ⟨s, hs, hends⟩ := hsubs e hg.exts 0 (Nat.two_pow_pos _)
  exact ⟨t, hr, ⟨e, s, hg.exts, hs, hends⟩, hinsert (fun _ => true) 3⟩

/-! ## The number of elements -/

theorem card_ids_le (e : ℕ → ℕ) (L : ℕ) : (ids e L).card ≤ 2 ^ L :=
  card_image_le.trans (card_range _).le

theorem Good.card_lt (hg : Good T t e) : Multiset.card t.contents < 2 ^ 64 := by
  have hlevel := hg.level
  have hsum : Multiset.card t.contents ≤ (ids e t.chLevel).card * (chH2Size * 7) := by
    rw [hg.contents_eq, Multiset.card_sum]
    apply sum_le_card_nsmul
    intro id hid
    obtain ⟨i, hi, rfl⟩ := mem_image.1 hid
    obtain ⟨s, hs, hf⟩ := hg.live i (mem_range.1 hi)
    rw [subElms_of_some hs, hf.sound.card]
    exact hf.numElm_le
  have hcard := card_ids_le e t.chLevel
  have hpow : 2 ^ t.chLevel ≤ 2 ^ 46 :=
    Nat.pow_le_pow_right (by omega) (by
      have hbits : chH1Bits = 47 := by decide
      omega)
  calc Multiset.card t.contents ≤ (ids e t.chLevel).card * (chH2Size * 7) := hsum
    _ ≤ 2 ^ 46 * (chH2Size * 7) := Nat.mul_le_mul_right _ (hcard.trans hpow)
    _ < 2 ^ 64 := by decide

theorem Reach.count [DecidableEq α] (hr : Reach T t stored) :
    t.ccNumElm = Multiset.card stored := by
  obtain ⟨hok, helms, hcount⟩ := hr.ok
  have hlt : Multiset.card t.contents < 2 ^ 64 := by
    rcases hok with hnone | ⟨e, hg⟩
    · rw [contents_of_none hnone]
      exact Nat.two_pow_pos 64
    · exact hg.card_lt
  rw [hcount, Nat.mod_eq_of_lt hlt, helms]

/-! ## The public functions -/

/-- What the public functions say about a set of stored elements. -/
structure SetOk (T : ChType α) (t : ChTable α) (stored : Multiset α) : Prop where
  /-- No two stored elements are equal. -/
  distinct : ∀ x ∈ stored, ∀ y ∈ stored, T.tEqual x y = true → x = y
  nodup : stored.Nodup
  count : t.ccNumElm = Multiset.card stored
  find : ∀ k, ∃ r, chFind T t (T.tHash k) k = .ok r ∧
    ∀ x, r = some x ↔ x ∈ stored ∧ T.tEqual x k = true
  insert : ∀ mem k, ∃ t' r, chInsert T mem t (T.tHash k) k = .ok (t', r) ∧
    (∀ x, r = .found x → x ∈ stored ∧ T.tEqual x k = true) ∧
    (r = .new → ∀ x ∈ stored, T.tEqual x k = false) ∧
    (r = .failed → (∃ n, mem n = false) ∨ chH1Bits ≤ t.chLevel + 1)
  remove : ∀ mem k, ∃ t' r, chRemove T mem t (T.tHash k) k = .ok (t', r) ∧
    ∀ x, r = some x ↔ x ∈ stored ∧ T.tEqual x k = true

/-- An answer that is a stored element equal to the key, or none where there is no such element. -/
theorem eq_some_iff (hT : T.Lawful) (hd : Distinct T stored) {k : α} {r : Option α}
    (hsome : ∀ x, r = some x → x ∈ stored ∧ T.tEqual x k = true)
    (hnone : r = none → ∀ x ∈ stored, T.tEqual x k = false) (x : α) :
    r = some x ↔ x ∈ stored ∧ T.tEqual x k = true := by
  constructor
  · exact hsome x
  · rintro ⟨hx, heq⟩
    cases r with
    | none =>
      rw [hnone rfl x hx] at heq
      cases heq
    | some y =>
      obtain ⟨hy, heqy⟩ := hsome y rfl
      rw [hd.eq_of_mem hy hx (hT.trans x k y heq (hT.symm y k heqy))]

/-- Distinct elements are different. -/
theorem Distinct.nodup [DecidableEq α] (hT : T.Lawful) (hd : Distinct T stored) :
    stored.Nodup := by
  rw [Multiset.nodup_iff_ne_cons_cons]
  intro x rest h
  have hne := hd x x rest h
  rw [hT.refl x] at hne
  cases hne

/-- In every run the functions answer as a set does: `_ch_find` finds the stored element that is
    equal to the key, `_ch_insert` finds the same or takes the new element, and fails only for want
    of memory or of bits, and `_ch_remove` takes out exactly the element it returns. -/
theorem set_of_runs [DecidableEq α] (T : ChType α) (hT : T.Lawful) (t : ChTable α)
    (stored : Multiset α) (hr : Reach T t stored) : SetOk T t stored := by
  have hd := hr.distinct hT
  obtain ⟨hok, helms, _⟩ := hr.ok
  refine ⟨fun x hx y hy heq => (hd.eq_of_mem hy hx heq).symm, hd.nodup hT, hr.count, fun k => ?_,
    fun mem k => ?_, fun mem k => ?_⟩
  -- `find`: an element that is equal has the same hash, so the lookup comes across it
  · obtain ⟨r, hfind, hsome, hnone⟩ := chLocate_ends (T := T) hok (T.tHash k)
      fun x => T.tEqual x k
    rw [helms] at hsome hnone
    refine ⟨r, hfind, eq_some_iff hT hd hsome fun hn x hx => ?_⟩
    cases heq : T.tEqual x k with
    | false => rfl
    | true => exact absurd heq (by simpa using hnone hn x hx (hT.hash x k heq))
  -- `insert`: what was there stays, and only lack of memory or of bits makes it fail
  · obtain ⟨r, hstep, hins⟩ := chInsert_ends mem hok k
    obtain ⟨t', r⟩ := r
    refine ⟨t', r, hstep, fun x hx => ?_, fun hnew x hx => ?_, fun hfail => ?_⟩
    · rw [← helms]
      exact (hins.found x hx).2
    · rw [← helms] at hx
      cases heq : T.tEqual x k with
      | false => rfl
      | true =>
        rw [(hins.new hnew).2 x hx (hT.hash x k heq)] at heq
        cases heq
    · by_contra hcan
      push Not at hcan
      obtain ⟨hmem, hlevel⟩ := hcan
      refine hins.success ⟨fun n => by simpa using hmem n, hlevel, ?_⟩ hfail
      rw [helms]
      exact hd
  -- `remove`: it takes out the one element that equals the key, if there is one
  · obtain ⟨r, hstep, hrem⟩ := chRemove_ends mem hok k
    obtain ⟨t', r⟩ := r
    refine ⟨t', r, hstep, eq_some_iff hT hd (fun x hx => ?_) fun hn x hx => ?_⟩
    · obtain ⟨hgone, heq⟩ := hrem.gone x hx
      rw [← helms, ← hgone]
      exact ⟨Multiset.mem_cons_self x _, heq⟩
    · rw [← helms] at hx
      cases heq : T.tEqual x k with
      | false => rfl
      | true =>
        rw [(hrem.missing hn).2 x hx (hT.hash x k heq)] at heq
        cases heq

/-- Two insertions and a removal. -/
theorem set_of_runs_remove : ∃ t, Reach constType t {6} ∧ SetOk constType t {6} := by
  obtain ⟨t, hr⟩ := exists_pair
  obtain ⟨t', r, hstep, hgone⟩ :=
    (set_of_runs constType lawful_constType t {6, 5} hr).remove (fun _ => true) 5
  obtain rfl := (hgone 5).mpr ⟨by decide, by decide⟩
  have hr' : Reach constType t' {6} := hr.remove _ 5 5 hstep
  exact ⟨t', hr', set_of_runs constType lawful_constType t' {6} hr'⟩

end Bgpd.Chash
