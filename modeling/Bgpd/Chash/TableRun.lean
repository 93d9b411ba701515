import Bgpd.Chash.TableSpec

/-!
# Runs of the Hash Table

Insertions and removals keep the invariant, and the elements are those that were inserted and not
removed since. No loop over the groups of a sub table runs forever.

## Main results

- `chInsert_ends`, `chRemove_ends`, `chLocate_ends`: the public functions
- `Reach`: the tables of all runs, with the elements they should have
- `probing_ends`: the numbers of the sub tables are exact, and all loops end
-/

namespace Bgpd.Chash

open Bgpd.Lib Finset

variable {α : Type} {T : ChType α} {t t' : ChTable α} {e : ℕ → ℕ} {s b : ChSub α} {h : BitVec 64}
  {mem : ℕ → Bool} {i : ℕ} {x y : α}

/-! ## Load and fill -/

theorem load_lt_of_loadfactor (hload : s.csNumElm + s.csNumTomb ≤ chH2Size * 7)
    (hfactor : ¬ chSubLoadfactor s ≥ chMaxLoad) : s.csNumElm + s.csNumTomb < loadLimit := by
  simp only [chSubLoadfactor, chMaxLoad, chH2Size, loadLimit] at *
  rw [Nat.mod_eq_of_lt (show s.csNumElm + s.csNumTomb < 2 ^ 32 by omega),
    Nat.mod_eq_of_lt (by omega)] at hfactor
  omega

theorem fill_sum_le (hs : s.csNumElm ≤ chH2Size * 7) (hb : b.csNumElm ≤ chH2Size * 7)
    (hfill : ¬ chSubFillfactor s + chSubFillfactor b > chMaxLoad * 2 / 3) :
    s.csNumElm + b.csNumElm ≤ loadLimit := by
  simp only [chSubFillfactor, chMaxLoad, chH2Size, loadLimit] at *
  rw [Nat.mod_eq_of_lt (show s.csNumElm * 1000 < 2 ^ 32 by omega),
    Nat.mod_eq_of_lt (by omega)] at hfill
  omega

theorem Fits.numElm_le {L : ℕ} (hf : Fits T L e i s) : s.csNumElm ≤ chH2Size * 7 := by
  have hle := hf.sound.load_le
  omega

/-! ## Growing -/

/-- What `ch_table_grow` does for a sub table `s`. -/
structure Grown (T : ChType α) (mem : ℕ → Bool) (t : ChTable α) (h : BitVec 64) (s : ChSub α)
    (t' : ChTable α) (done : Bool) : Prop where
  good : ∃ e, Good T t' e ∧ (done = true → ∃ s', t'.subs (e (chH1 h t'.chLevel)) = some s' ∧
    s'.csNumElm + s'.csNumTomb < loadLimit + s'.csLocalLevel)
  elms : t'.contents = t.contents
  count : t'.ccNumElm = t.ccNumElm
  level : s.csLocalLevel ≠ t.chLevel → t'.chLevel = t.chLevel
  success : t.chLevel + 1 < chH1Bits → (∀ k, mem k = true) → Distinct T s.contents → done = true

theorem chTableResize_success (hg : Good T t e) (hlevel : t.chLevel + 1 < chH1Bits) :
    chTableResize true t ≠ none := by
  rw [chTableResize, if_neg (by omega), if_pos rfl, hg.exts]
  simp

variable (mem) in
/-- Splitting a sub table below the table's level: the elements stay the same. -/
theorem growSplit_ends (hg : Good T t e) (hid : t.subs (e (chH1 h t.chLevel)) = some s)
    (hf : Fits T t.chLevel e (chH1 h t.chLevel) s) (hl : s.csLocalLevel + 1 ≤ t.chLevel) :
    Ends (if mem 3 = false ∨ mem 4 = false then .ok (t, false)
      else do
        match ← chSubSplit T s with
        | none => return (t, false)
        | some (low, high) => return (← growInto t h (e (chH1 h t.chLevel)) s low high, true))
      fun r => (∃ e', Good T r.1 e' ∧ (r.2 = true → ∃ s',
          r.1.subs (e' (chH1 h r.1.chLevel)) = some s' ∧
          s'.csNumElm + s'.csNumTomb < loadLimit + s'.csLocalLevel)) ∧
        r.1.contents = t.contents ∧ r.1.ccNumElm = t.ccNumElm ∧ r.1.chLevel = t.chLevel ∧
        ((∀ k, mem k = true) → Distinct T s.contents → r.2 = true) := by
  refine Ends.ite (fun hmem => ?_) fun _ => ?_
  · rw [ends_ok_iff]
    refine ⟨⟨e, hg, by simp⟩, rfl, rfl, rfl, fun hall => ?_⟩
    rw [hall 3, hall 4] at hmem
    simp at hmem
  · have hload := hf.load_lt hg.level
    refine (chSubSplit_ends hf.sound (by omega)).bind fun r hr => ?_
    cases r with
    | none =>
      rw [ends_pure_iff]
      exact ⟨⟨e, hg, by simp⟩, rfl, rfl, rfl, fun _ hd => absurd hd (hr.2 rfl)⟩
    | some lowHigh =>
      obtain ⟨low, high⟩ := lowHigh
      refine (good_growInto hg hid hf hl (hr.1 low high rfl)).bind fun t' ht' => ?_
      obtain ⟨⟨e', hg', s', hs', hload', _⟩, hlevel, helms, hcount⟩ := ht'
      rw [ends_pure_iff]
      refine ⟨⟨e', hg', fun _ => ⟨s', ?_, hload'⟩⟩, helms, hcount, hlevel, fun _ _ => rfl⟩
      rw [hlevel]
      exact hs'

variable (mem) in
/-- Growing doubles the index if it must and then splits the full sub table. -/
theorem chTableGrow_ends (hg : Good T t e) (hid : t.subs (e (chH1 h t.chLevel)) = some s)
    (hf : Fits T t.chLevel e (chH1 h t.chLevel) s) :
    Ends (chTableGrow T mem t h (e (chH1 h t.chLevel)) s) fun r =>
      Grown T mem t h s r.1 r.2 := by
  have hbits := hg.level
  have h64 : chH1Bits ≤ 64 := by decide
  rw [chTableGrow]
  by_cases hfull : s.csLocalLevel = t.chLevel
  -- the table is doubled before the split
  · rw [if_pos hfull]
    cases hresize : chTableResize (mem 2) t with
    | none =>
      rw [ends_ok_iff]
      -- out of memory, nothing has changed
      refine ⟨⟨e, hg, by simp⟩, rfl, rfl, fun _ => rfl, fun hlevel hall => ?_⟩
      rw [hall 2] at hresize
      exact absurd hresize (chTableResize_success hg hlevel)
    | some t₁ =>
      obtain ⟨hg₁, hlevel₁, helms₁, hcount₁, hsubs₁⟩ := good_resize hg hresize
      have hbits₁ := hg₁.level
      have hi₁ := hg₁.index_lt h
      have hdown := chH1_div (h := h) (show t.chLevel ≤ t₁.chLevel by omega) (by omega)
      rw [show t₁.chLevel - t.chLevel = 1 by omega, pow_one] at hdown
      -- the entry of the hash is a copy of the old one
      have hentry : resizeLoop (2 ^ t.chLevel) e (chH1 h t₁.chLevel) = e (chH1 h t.chLevel) := by
        rw [hlevel₁, pow_succ] at hi₁
        rw [resizeLoop_eq, if_pos (by rw [hlevel₁]; omega), hdown]
      obtain ⟨s₁, hs₁, hf₁⟩ := hg₁.live _ (hg₁.index_lt h)
      have hsame : s₁ = s := by
        rw [hentry, hsubs₁, hid, Option.some.injEq] at hs₁
        exact hs₁.symm
      subst hsame
      have hrest := growSplit_ends mem hg₁ hs₁ hf₁ (by omega)
      rw [hentry] at hrest
      refine hrest.mono fun r hr => ?_
      obtain ⟨hgood, helms, hcount, hlevel, hsuccess⟩ := hr
      exact ⟨hgood, helms.trans helms₁, hcount.trans hcount₁, fun hne => absurd hfull hne,
        fun _ hall hd => hsuccess hall hd⟩
  · rw [if_neg hfull]
    -- there is a bit left to split by
    have hle := hf.level
    refine (growSplit_ends mem hg hid hf (by omega)).mono fun r hr => ?_
    obtain ⟨hgood, helms, hcount, hlevel, hsuccess⟩ := hr
    exact ⟨hgood, helms, hcount, fun _ => hlevel, fun _ hall hd => hsuccess hall hd⟩

/-! ## The element of a hash -/

theorem Good.mem_contents_iff (hg : Good T t e) :
    x ∈ t.contents ↔ ∃ i < 2 ^ t.chLevel, ∃ s, t.subs (e i) = some s ∧ x ∈ s.contents := by
  rw [hg.contents_eq, Multiset.mem_sum]
  constructor
  · rintro ⟨id, hid, hx⟩
    obtain ⟨i, hi, rfl⟩ := mem_image.1 hid
    obtain ⟨s, hs, _⟩ := hg.live i (mem_range.1 hi)
    rw [subElms_of_some hs] at hx
    exact ⟨i, mem_range.1 hi, s, hs, hx⟩
  · rintro ⟨i, hi, s, hs, hx⟩
    refine ⟨e i, mem_ids hi, ?_⟩
    rw [subElms_of_some hs]
    exact hx

/-- An element stands in the sub table of its hash. -/
theorem Good.mem_sub (hg : Good T t e) (hx : x ∈ t.contents)
    (hs : t.subs (e (chH1 (T.tHash x) t.chLevel)) = some s) : x ∈ s.contents := by
  have hbits := hg.level
  have h64 : chH1Bits ≤ 64 := by decide
  obtain ⟨i, hi, s', hs', hx'⟩ := hg.mem_contents_iff.1 hx
  obtain ⟨s'', hs'', hf⟩ := hg.live i hi
  have hsame : s'' = s' := Option.some.inj (hs''.symm.trans hs')
  subst hsame
  have hblock := (hf.block _ (hg.index_lt (T.tHash x))).2 (by
    rw [chH1_div hf.level (by omega)]
    exact hf.side x hx')
  rw [hblock, hs', Option.some.injEq] at hs
  exact hs ▸ hx'

theorem Good.sub_le (hg : Good T t e) (hi : i < 2 ^ t.chLevel) (hs : t.subs (e i) = some s) :
    s.contents ≤ t.contents := by
  rw [hg.contents_eq, ← subElms_of_some hs]
  exact single_le_sum (f := subElms t) (fun _ _ => Multiset.zero_le _) (mem_ids hi)

/-! ## Insertion -/

theorem inc64_mod (n : ℕ) : inc64 (n % 2 ^ 64) = (n + 1) % 2 ^ 64 := by
  rw [inc64, Nat.mod_add_mod]

theorem dec64_mod (n : ℕ) : dec64 ((n + 1) % 2 ^ 64) = n % 2 ^ 64 := by
  rw [dec64]
  omega

/-- The number of elements is right, as far as it can be in a `uint64_t`. -/
def Counted (t : ChTable α) : Prop := t.ccNumElm = Multiset.card t.contents % 2 ^ 64

/-- The invariant of a table that may not have been used yet. -/
def TableOk (T : ChType α) (t : ChTable α) : Prop := t.chExts = none ∨ ∃ e, Good T t e

/-- The extendible table is doubled only when the sub table of the element uses all its bits. -/
def LevelKept (T : ChType α) (t : ChTable α) (elm : α) (t' : ChTable α) : Prop :=
  ∀ e s, t.chExts = some e → t.subs (e (chH1 (T.tHash elm) t.chLevel)) = some s →
    s.csLocalLevel ≠ t.chLevel → t'.chLevel = t.chLevel

/-- What `_ch_insert` does with an element of a table that exists. -/
structure InsertOk (T : ChType α) (t : ChTable α) (elm : α) (t' : ChTable α) (r : InsResult α) :
    Prop where
  good : ∃ e, Good T t' e
  new : r = .new → t'.contents = elm ::ₘ t.contents ∧
    ∀ y ∈ t.contents, T.tHash y = T.tHash elm → T.tEqual y elm = false
  found : ∀ y, r = .found y → t'.contents = t.contents ∧ y ∈ t.contents ∧ T.tEqual y elm = true
  failed : r = .failed → t'.contents = t.contents
  count : Counted t → Counted t'
  level : LevelKept T t elm t'

/-- Inserting into a sub table with room never fails. -/
theorem insertInto_ends (hg : Good T t e) (elm : α)
    (hs : t.subs (e (chH1 (T.tHash elm) t.chLevel)) = some s)
    (hload : s.csNumElm + s.csNumTomb < loadLimit + s.csLocalLevel) :
    Ends (insertInto T t (T.tHash elm) elm) fun r =>
      InsertOk T t elm r.1 r.2 ∧ r.2 ≠ .failed ∧ r.1.chLevel = t.chLevel := by
  have hi := hg.index_lt (T.tHash elm)
  obtain ⟨s₁, hread, hs₁, hf⟩ := hg.extAt_ok hi
  have hsame : s₁ = s := Option.some.inj (hs₁.symm.trans hs)
  subst hsame
  rw [insertInto, hread]
  refine (chSubInsert_ends (T := T) (h := T.tHash elm) hf.sound (hf.load_lt hg.level) elm).bind
    fun r hr => ?_
  obtain ⟨s', v⟩ := r
  have hlevel := hr.level
  have hload' := hr.load
  dsimp only at hlevel hload'
  -- the element belongs to this sub table
  have hside : ∀ x ∈ s'.contents, x ∈ s₁.contents ∨
      chH1 (T.tHash x) t.chLevel = chH1 (T.tHash elm) t.chLevel := by
    intro x hx
    cases v with
    | none =>
      rw [hr.new rfl, Multiset.mem_cons] at hx
      rcases hx with rfl | hx
      · exact .inr rfl
      · exact .inl hx
    | some y =>
      rw [(hr.found y rfl).1] at hx
      exact .inl hx
  have hbound : s'.csNumElm + s'.csNumTomb ≤ loadLimit + s₁.csLocalLevel := by omega
  have hgood := good_setSub hg hf hr.sound (hr.chained hf.chained rfl) hlevel hbound hside
  have hsum := contents_setSub s' hg hi hs
  cases v with
  -- the element is new
  | none =>
    rw [hr.new rfl, Multiset.add_cons, ← Multiset.cons_add] at hsum
    have helms := add_right_cancel hsum
    rw [ends_pure_iff]
    refine ⟨⟨⟨e, hgood.exts, hgood.level, hgood.fresh, hgood.live⟩,
      fun _ => ⟨helms, fun y hy hhash => ?_⟩, fun y hy => ?_, fun hf => ?_, fun hc => ?_,
      fun _ _ _ _ _ => rfl⟩, fun hf => ?_, rfl⟩
    · refine hr.missing hf.chained rfl y (hg.mem_sub hy ?_) hhash
      rw [hhash]
      exact hs
    · cases hy
    · cases hf
    -- the counter goes up by one
    · have hcard : Multiset.card (t.setSub (e (chH1 (T.tHash elm) t.chLevel)) s').contents =
          Multiset.card t.contents + 1 := by rw [helms, Multiset.card_cons]
      have hnew := inc64_mod (Multiset.card t.contents)
      rw [← hc, ← hcard] at hnew
      exact hnew
    · cases hf
  | some y =>
    -- an equal element takes the place
    obtain ⟨hkeep, hy, heq⟩ := hr.found y rfl
    rw [hkeep] at hsum
    have helms := add_right_cancel hsum
    rw [ends_pure_iff]
    refine ⟨⟨⟨e, hgood⟩, fun hn => ?_, fun z hz => ?_, fun hf => ?_, fun hc => ?_,
      fun _ _ _ _ _ => rfl⟩, fun hf => ?_, rfl⟩
    · cases hn
    · cases hz
      exact ⟨helms, Multiset.mem_of_le (hg.sub_le hi hs) hy, heq⟩
    · cases hf
    · rw [Counted, helms]
      exact hc
    · cases hf

/-- When `_ch_insert` is sure to succeed: there is memory, and the extendible table can grow. -/
def CanGrow (T : ChType α) (mem : ℕ → Bool) (t : ChTable α) : Prop :=
  (∀ k, mem k = true) ∧ t.chLevel + 1 < chH1Bits ∧ Distinct T t.contents

theorem Distinct.of_le {m m' : Multiset α} (h : Distinct T m') (hle : m ≤ m') : Distinct T m := by
  obtain ⟨rest, rfl⟩ := Multiset.le_iff_exists_add.1 hle
  exact h.of_add

variable (mem) in
/-- Insertion with a growth before it fails only if the table cannot grow. -/
theorem insertGrow_ends (hg : Good T t e) (elm : α) :
    Ends (insertGrow T mem t (T.tHash elm) elm) fun r =>
      InsertOk T t elm r.1 r.2 ∧ (CanGrow T mem t → r.2 ≠ .failed) := by
  have hi := hg.index_lt (T.tHash elm)
  obtain ⟨s, hread, hs, hf⟩ := hg.extAt_ok hi
  rw [insertGrow, hread]
  refine Ends.ite (fun _ => ?_) fun hload => ?_
  -- the sub table is full and is split first
  · refine (chTableGrow_ends mem hg hs hf).bind fun r hr => ?_
    obtain ⟨t₁, grown⟩ := r
    obtain ⟨e₁, hg₁, hroom⟩ := hr.good
    have helms := hr.elms
    have hcount := hr.count
    have hlevel : LevelKept T t elm t₁ := by
      intro e' s' he hs' hne
      rw [hg.exts, Option.some.injEq] at he
      subst he
      rw [hs, Option.some.injEq] at hs'
      subst hs'
      exact hr.level hne
    dsimp only at helms hcount
    refine Ends.ite (fun hdone => ?_) fun hnot => ?_
    -- it was split, and there is room now
    · obtain ⟨s₁, hs₁, hload₁⟩ := hroom hdone
      refine (insertInto_ends hg₁ elm hs₁ hload₁).mono fun r hr₁ => ?_
      obtain ⟨hok, hne, hlevel₁⟩ := hr₁
      refine ⟨⟨hok.good, fun hn => ?_, fun y hy => ?_, fun hfail => absurd hfail hne, fun hc => ?_,
        fun e' s' he hs' hne => hlevel₁.trans (hlevel e' s' he hs' hne)⟩, fun _ => hne⟩
      · rw [← helms]
        exact hok.new hn
      · rw [← helms]
        exact hok.found y hy
      · apply hok.count
        rw [Counted, helms, hcount]
        exact hc
    · rw [ends_pure_iff]
      -- it was not split
      refine ⟨⟨⟨e₁, hg₁⟩, fun hn => ?_, fun y hy => ?_, fun _ => helms, fun hc => ?_, hlevel⟩,
        fun hgrow => ?_⟩
      · cases hn
      · cases hy
      · rw [Counted, helms, hcount]
        exact hc
      -- that happens only without memory, or if all have one hash
      · exact absurd (hr.success hgrow.2.1 hgrow.1 (hgrow.2.2.of_le (hg.sub_le hi hs))) hnot
  -- there was room from the start
  · have hroom := load_lt_of_loadfactor hf.sound.load_le hload
    refine (insertInto_ends hg elm hs (by omega)).mono fun r hr => ?_
    exact ⟨hr.1, fun _ => hr.2.1⟩

variable (mem) in
/-- `_ch_init`: a table with one sub table, or none. -/
theorem chInit_ends (hnone : t.chExts = none) :
    Ends (chInit mem t) fun r =>
      (r.2 = true → (∃ e, Good T r.1 e ∧ ∀ k < 2 ^ 1, r.1.subs (e k) = some (chSubAlloc 0)) ∧
        r.1.contents = 0 ∧ r.1.ccNumElm = 0 ∧ r.1.chLevel = 1) ∧
      (r.2 = false → r.1.chExts = none ∧ r.1.ccNumElm = 0 ∧ r.1.chLevel = 0 ∧ ¬ ∀ k, mem k = true)
      := by
  rw [chInit]
  refine Ends.ite (fun _ => ?_) fun hmem => ?_
  · cases hmem1 : mem 1 with
    -- the second allocation fails: the resize hands back nothing and `ch_exts` is still NULL
    | false =>
      have hresize : chTableResize false
          ({ t with chLevel := 0, ccNumElm := 0 }.newSub (chSubAlloc 0)) = none := rfl
      rw [hresize, ends_ok_iff]
      refine ⟨by simp, fun _ => ⟨hnone, rfl, rfl, fun hall => ?_⟩⟩
      rw [hall 1] at hmem1
      cases hmem1
    | true =>
      -- the table after the resize: two buckets, both still naming the first sub table
      obtain ⟨t₁, ht₁⟩ : ∃ t₁ : ChTable α, t₁ =
          { { t with chLevel := 0, ccNumElm := 0 }.newSub (chSubAlloc 0) with
            chLevel := 1, chExts := some fun _ => t.next + 1 } := ⟨_, rfl⟩
      have hresize : chTableResize true
          ({ t with chLevel := 0, ccNumElm := 0 }.newSub (chSubAlloc 0)) = some t₁ := by
        have hsmall : ¬ 0 + 1 ≥ chH1Bits := by decide
        simp only [chTableResize, ChTable.newSub, hnone, ht₁]
        rw [if_neg hsmall, if_pos trivial]
      have hfill : chTableFill t₁ t₁.exts 0 t.next 0 = .ok { t₁ with
          chExts := some fun k => if k / 2 ^ (t₁.chLevel - 0) = 0 then t.next else t₁.exts k } :=
        fill_eq (Nat.zero_le _) (by decide)
      -- the fill writes the id of the only sub table into both
      have hentry : ∀ k < 2 ^ 1, (if k / 2 ^ (t₁.chLevel - 0) = 0 then t.next else t₁.exts k) =
          t.next := by
        intro k hk
        rw [if_pos]
        rw [ht₁]
        exact Nat.div_eq_of_lt hk
      have hsub : t₁.subs t.next = some (chSubAlloc 0) := by
        rw [ht₁]
        simp only [ChTable.newSub, Function.update_self]
      have hlevel : t₁.chLevel = 1 := by rw [ht₁]
      rw [hresize]
      have hgood : Good T { t₁ with
          chExts := some fun k => if k / 2 ^ (t₁.chLevel - 0) = 0 then t.next else t₁.exts k }
          fun k => if k / 2 ^ (t₁.chLevel - 0) = 0 then t.next else t₁.exts k := by
        -- every clause of `Good` speaks of this one empty sub table
        refine ⟨rfl, by rw [hlevel]; decide, fun k hk => ?_, fun k hk => ?_⟩
        · rw [hlevel] at hk
          rw [hentry k hk, ht₁]
          exact Nat.lt_succ_self _
        · rw [hlevel] at hk ⊢
          refine ⟨chSubAlloc 0, by rw [← hlevel, hentry k hk]; exact hsub, sound_alloc 0,
            chained_alloc 0, Nat.zero_le _, Nat.zero_le _, fun j hj => ?_, fun x hx => ?_⟩
          · rw [← hlevel, hentry k hk, hentry j hj, hlevel]
            refine iff_of_true rfl ?_
            rw [show (chSubAlloc 0 : ChSub α).csLocalLevel = 0 from rfl, Nat.div_eq_of_lt hj,
              Nat.div_eq_of_lt hk]
          · rw [contents_alloc] at hx
            exact absurd hx (Multiset.notMem_zero x)
      refine Ends.bind (P := fun t₂ => t₂ = { t₁ with
          chExts := some fun k => if k / 2 ^ (t₁.chLevel - 0) = 0 then t.next else t₁.exts k })
        ⟨_, hfill, rfl⟩ fun t₂ ht₂ => ?_
      subst ht₂
      rw [ends_pure_iff]
      refine ⟨fun _ => ⟨⟨_, hgood, fun k hk => ?_⟩, ?_, ?_, hlevel⟩, by simp⟩
      · rw [hentry k hk]
        exact hsub
      -- an empty table: what it holds it would hold in some sub table
      · rw [Multiset.eq_zero_iff_forall_notMem]
        intro x hx
        obtain ⟨i, hi, s, hs, hx⟩ := hgood.mem_contents_iff.1 hx
        dsimp only at hi hs
        rw [hlevel] at hi
        rw [hentry i hi, hsub, Option.some.injEq] at hs
        rw [← hs, contents_alloc] at hx
        exact Multiset.notMem_zero x hx
      · rw [ht₁]
        rfl
  -- the first allocation fails
  · rw [ends_ok_iff]
    refine ⟨by simp, fun _ => ⟨hnone, rfl, rfl, fun hall => hmem (hall 0)⟩⟩

theorem contents_of_none (hnone : t.chExts = none) : t.contents = 0 := by
  rw [ChTable.contents, hnone, Option.elim_none]

/-- What `_ch_insert` does. -/
structure Insertion (T : ChType α) (mem : ℕ → Bool) (t : ChTable α) (elm : α) (t' : ChTable α)
    (r : InsResult α) : Prop where
  ok : TableOk T t'
  new : r = .new → t'.contents = elm ::ₘ t.contents ∧
    ∀ y ∈ t.contents, T.tHash y = T.tHash elm → T.tEqual y elm = false
  found : ∀ y, r = .found y → t'.contents = t.contents ∧ y ∈ t.contents ∧ T.tEqual y elm = true
  failed : r = .failed → t'.contents = t.contents
  count : Counted t → Counted t'
  success : CanGrow T mem t → r ≠ .failed
  levelInit : t.chExts = none → r ≠ .failed → t'.chLevel = 1
  level : LevelKept T t elm t'

variable (mem) in
/-- What `ch_insert` does to the elements, with any failure of the allocator. -/
theorem chInsert_ends (hok : TableOk T t) (elm : α) :
    Ends (chInsert T mem t (T.tHash elm) elm) fun r => Insertion T mem t elm r.1 r.2 := by
  rw [chInsert]
  refine Ends.ite (fun hnone => ?_) fun hsome => ?_
  -- the first insertion makes the table before it inserts
  · rw [Option.isNone_iff_eq_none] at hnone
    have hzero := contents_of_none hnone
    refine (chInit_ends (T := T) mem hnone).bind fun r hr => ?_
    obtain ⟨t₁, done⟩ := r
    refine Ends.ite (fun hdone => ?_) fun hnot => ?_
    -- from here it is an insertion into the empty table `t₁`
    · obtain ⟨⟨e₁, hg₁, hsub₁⟩, hzero₁, hcount₁, hlevel₁⟩ := hr.1 hdone
      dsimp only at hg₁ hsub₁ hzero₁ hcount₁ hlevel₁
      refine (insertGrow_ends mem hg₁ elm).mono fun r hr₁ => ?_
      obtain ⟨hins, hsuccess⟩ := hr₁
      refine ⟨.inr hins.good, ?_, ?_, ?_, fun _ => hins.count ?_, fun hgrow => hsuccess ?_,
        fun _ _ => ?_, fun e s he => ?_⟩
      · rw [hzero, ← hzero₁]
        exact hins.new
      · rw [hzero, ← hzero₁]
        exact hins.found
      · rw [hzero, ← hzero₁]
        exact hins.failed
      · rw [Counted, hcount₁, hzero₁]
        rfl
      · refine ⟨hgrow.1, by rw [hlevel₁]; decide, ?_⟩
        rw [hzero₁, ← hzero]
        exact hgrow.2.2
      -- no sub table was there before, and the new one is not at the level of the table
      · have hi := hg₁.index_lt (T.tHash elm)
        rw [hlevel₁] at hi
        have hsub := hsub₁ _ hi
        rw [← hlevel₁] at hsub
        have hkept := hins.level e₁ _ hg₁.exts hsub (by
          rw [hlevel₁]
          exact Nat.zero_ne_one)
        exact hkept.trans hlevel₁
      · rw [hnone] at he
        cases he
    -- without memory nothing has changed
    · obtain ⟨hnone₁, hcount₁, hlevel₁, hmem⟩ := hr.2 (by simpa using hnot)
      dsimp only at hnone₁ hcount₁ hlevel₁
      have hzero₁ := contents_of_none hnone₁
      rw [ends_pure_iff]
      refine ⟨.inl hnone₁, fun h => ?_, fun y h => ?_, fun _ => hzero₁.trans hzero.symm,
        fun _ => ?_,
        fun hgrow => absurd hgrow.1 hmem, fun _ hne => absurd rfl hne, fun e s he => ?_⟩
      · cases h
      · cases h
      · rw [Counted, hcount₁, hzero₁]
        rfl
      · rw [hnone] at he
        cases he
  -- the table is there already
  · rw [Option.isNone_iff_eq_none] at hsome
    obtain ⟨e, hg⟩ := hok.resolve_left hsome
    refine (insertGrow_ends mem hg elm).mono fun r hr => ?_
    obtain ⟨hins, hsuccess⟩ := hr
    exact ⟨.inr hins.good, hins.new, hins.found, hins.failed, hins.count, hsuccess,
      fun hnone => absurd hnone hsome, hins.level⟩

/-! ## Compaction -/

/-- A merge with the buddy lowers the local level and keeps the elements. -/
theorem chTableCompact_ends {r : Bool} (hg : Good T t e)
    (hid : t.subs (e (chH1 h t.chLevel)) = some s)
    (hf : Fits T t.chLevel e (chH1 h t.chLevel) s) :
    Ends (chTableCompact T r t h (e (chH1 h t.chLevel)) s) fun o => ∀ t', o = some t' →
      (∃ e' s', Good T t' e' ∧ t'.subs (e' (chH1 h t.chLevel)) = some s' ∧
        s'.csLocalLevel + 1 = s.csLocalLevel) ∧
      t'.chLevel = t.chLevel ∧ t'.contents = t.contents ∧ t'.ccNumElm = t.ccNumElm := by
  have hi := hg.index_lt h
  rw [chTableCompact]
  refine Ends.ite (fun _ => ?_) fun hpos => ?_
  -- a table of one bucket has no buddy
  · rw [ends_ok_iff]
    simp
  · have hbuddy := buddy_lt hi (Nat.pos_of_ne_zero hpos) hf.level
    obtain ⟨b, hread, hb, hfb⟩ := hg.extAt_ok hbuddy
    rw [hread]
    -- three reasons not to merge: another level, too many elements, no memory
    refine Ends.ite (fun _ => by rw [ends_pure_iff]; simp) fun hlevel => ?_
    refine Ends.ite (fun _ => by rw [ends_pure_iff]; simp) fun hfill => ?_
    refine Ends.ite (fun _ => by rw [ends_pure_iff]; simp) fun _ => ?_
    have hsum := fill_sum_le hf.numElm_le hfb.numElm_le hfill
    have hmax : loadLimit < chH2Size * 7 := by decide
    -- merging may still find no room for an element
    refine (chSubMerge_ends (T := T) hf.sound hfb.sound (by omega)).bind fun o ho => ?_
    cases o with
    | none =>
      rw [ends_pure_iff]
      simp
    -- both halves are in `s'`, and the buckets of both now name it
    | some s' =>
      have hmerge := ho.1 s' rfl
      refine (good_compactInto hg rfl rfl hid hf (Nat.pos_of_ne_zero hpos) hb hfb
        (not_not.1 hlevel) hsum hmerge).bind fun t' ht' => ?_
      obtain ⟨⟨e', hg', hs'⟩, hlevel', helms, hcount⟩ := ht'
      rw [ends_pure_iff]
      intro t'' heq
      rw [Option.some.injEq] at heq
      subst heq
      refine ⟨⟨e', s', hg', hs', ?_⟩, hlevel', helms, hcount⟩
      have hdown := hmerge.level
      omega

/-- The loop of `_ch_remove` takes a bit off the local level in each round. -/
theorem compactLoop_ends (fuel : ℕ) :
    ∀ (t : ChTable α) (e : ℕ → ℕ) (s : ChSub α), Good T t e →
      t.subs (e (chH1 h t.chLevel)) = some s → s.csLocalLevel < fuel →
      Ends (compactLoop T mem h fuel t (e (chH1 h t.chLevel)) s) fun t' =>
        (∃ e', Good T t' e') ∧ t'.contents = t.contents ∧ t'.ccNumElm = t.ccNumElm := by
  induction fuel with
  | zero => intro t e s _ _ hlt; omega
  | succ fuel ih =>
    intro t e s hg hs hlt
    obtain ⟨s₁, _, hs₁, hf⟩ := hg.extAt_ok (hg.index_lt h)
    have hsame : s₁ = s := Option.some.inj (hs₁.symm.trans hs)
    subst hsame
    rw [compactLoop]
    refine Ends.ite (fun _ => ?_) fun _ => ?_
    · refine (chTableCompact_ends hg hs hf).bind fun o ho => ?_
      cases o with
      | none =>
        rw [ends_pure_iff]
        exact ⟨⟨e, hg⟩, rfl, rfl⟩
      | some t' =>
        obtain ⟨⟨e', s', hg', hs', hdown⟩, hlevel, helms, hcount⟩ := ho t' rfl
        rw [← hlevel] at hs'
        obtain ⟨s₂, hread, hs₂, _⟩ := hg'.extAt_ok (hg'.index_lt h)
        have hsame : s₂ = s' := Option.some.inj (hs₂.symm.trans hs')
        subst hsame
        dsimp only
        rw [hread]
        refine (ih t' e' s₂ hg' hs' (by omega)).mono fun t'' ht'' => ?_
        exact ⟨ht''.1, ht''.2.1.trans helms, ht''.2.2.trans hcount⟩
    · rw [ends_ok_iff]
      exact ⟨⟨e, hg⟩, rfl, rfl⟩

/-! ## Removal and lookup -/

/-- What `_ch_remove` does. -/
structure Removal (T : ChType α) (t : ChTable α) (needle : α) (t' : ChTable α) (v : Option α) :
    Prop where
  ok : TableOk T t'
  gone : ∀ x, v = some x → x ::ₘ t'.contents = t.contents ∧ T.tEqual x needle = true
  missing : v = none → t'.contents = t.contents ∧
    ∀ y ∈ t.contents, T.tHash y = T.tHash needle → T.tEqual y needle = false
  count : Counted t → Counted t'

theorem contents_count (t : ChTable α) (n : ℕ) :
    ({ t with ccNumElm := n } : ChTable α).contents = t.contents := rfl

variable (mem) in
/-- What `ch_remove` does to the elements; compaction loses none of them. -/
theorem chRemove_ends (hok : TableOk T t) (needle : α) :
    Ends (chRemove T mem t (T.tHash needle) needle) fun r => Removal T t needle r.1 r.2 := by
  rw [chRemove]
  refine Ends.ite (fun hnone => ?_) fun hsome => ?_
  -- nothing was ever inserted
  · rw [Option.isNone_iff_eq_none] at hnone
    rw [ends_ok_iff]
    refine ⟨hok, by simp, fun _ => ⟨rfl, fun y hy => ?_⟩, id⟩
    rw [contents_of_none hnone] at hy
    exact absurd hy (Multiset.notMem_zero y)
  · rw [Option.isNone_iff_eq_none] at hsome
    obtain ⟨e, hg⟩ := hok.resolve_left hsome
    have hi := hg.index_lt (T.tHash needle)
    obtain ⟨s, hread, hs, hf⟩ := hg.extAt_ok hi
    rw [hread]
    -- the sub table takes the element out, and is put back into its bucket
    refine (chSubRemove_ends (T := T) (h := T.tHash needle) hf.sound (hf.hasOpen hg.level)
      needle).bind fun r hr => ?_
    obtain ⟨s', v⟩ := r
    have hlevel := hr.level
    have hload := hr.load
    have hload' := hf.load
    dsimp only at hlevel hload
    have hsub : ∀ x ∈ s'.contents, x ∈ s.contents := by
      intro x hx
      cases v with
      | none =>
        have hsame : s' = s := hr.same rfl
        exact hsame ▸ hx
      | some y =>
        rw [← (hr.gone y rfl).1]
        exact Multiset.mem_cons_of_mem hx
    have hbound : s'.csNumElm + s'.csNumTomb ≤ loadLimit + s.csLocalLevel := by omega
    have hgood := good_setSub hg hf hr.sound (hr.chained hf.chained) hlevel hbound
      fun x hx => .inl (hsub x hx)
    have hsum := contents_setSub s' hg hi hs
    dsimp only
    cases v with
    -- not found: neither the sub table nor the table has changed
    | none =>
      have hsame : s' = s := hr.same rfl
      rw [hsame] at hsum hgood
      have helms := add_right_cancel hsum
      rw [removeEnd, ends_ok_iff, hsame]
      refine ⟨.inr ⟨e, hgood⟩, by simp, fun _ => ⟨helms, fun y hy hhash => ?_⟩, fun hc => ?_⟩
      · refine hr.missing hf.chained rfl y (hg.mem_sub hy ?_) hhash
        rw [hhash]
        exact hs
      · rw [Counted, helms]
        exact hc
    -- found: the element goes, and the sub table may now be merged with its buddy
    | some x =>
      obtain ⟨hgone, heq⟩ := hr.gone x rfl
      rw [← hgone, Multiset.add_cons, ← Multiset.cons_add] at hsum
      have helms := add_right_cancel hsum
      rw [removeEnd]
      generalize hn : dec64 t.ccNumElm = n
      have hgood' : Good T { t.setSub (e (chH1 (T.tHash needle) t.chLevel)) s' with
          ccNumElm := n } e :=
        ⟨hgood.exts, hgood.level, hgood.fresh, hgood.live⟩
      -- `cc_num_elm` is a 64 bit counter, so it is the cardinality modulo 2^64
      refine (compactLoop_ends (s'.csLocalLevel + 1) _ e s' hgood' ?_ (Nat.lt_succ_self _)).bind
        fun t' ht' => ?_
      · exact (setSub_subs t _ _ s').trans (if_pos rfl)
      · obtain ⟨⟨e', hg'⟩, helms', hcount⟩ := ht'
        rw [ends_pure_iff]
        replace helms' := helms'.trans (contents_count _ n)
        refine ⟨.inr ⟨e', hg'⟩, fun y hy => ?_, by simp, fun hc => ?_⟩
        · rw [Option.some.injEq] at hy
          subst hy
          rw [helms']
          exact ⟨helms, heq⟩
        · have hcard : Multiset.card t.contents = Multiset.card t'.contents + 1 := by
            rw [helms', ← helms]
            exact Multiset.card_cons _ _
          rw [Counted, hcard] at hc
          rw [Counted, hcount, ← hn, hc]
          exact dec64_mod _

/-- What a lookup of the elements with hash `h` finds. -/
def Located (T : ChType α) (t : ChTable α) (h : BitVec 64) (eq : α → Bool) (r : Option α) : Prop :=
  (∀ x, r = some x → x ∈ t.contents ∧ eq x = true) ∧
    (r = none → ∀ y ∈ t.contents, T.tHash y = h → eq y = false)

/-- The lookup ends in the sub table of the hash. -/
theorem chLocate_ends (hok : TableOk T t) (h : BitVec 64) (eq : α → Bool) :
    Ends (chLocate t h eq) (Located T t h eq) := by
  rw [chLocate]
  refine Ends.ite (fun hnone => ?_) fun hsome => ?_
  · rw [Option.isNone_iff_eq_none] at hnone
    rw [ends_ok_iff, Located, contents_of_none hnone]
    simp
  · rw [Option.isNone_iff_eq_none] at hsome
    obtain ⟨e, hg⟩ := hok.resolve_left hsome
    have hi := hg.index_lt h
    obtain ⟨s, hread, hs, hf⟩ := hg.extAt_ok hi
    rw [hread]
    refine (chSubLocate_ends (T := T) (h := h) hf.sound
      (hf.hasOpen hg.level)).mono fun r hr => ⟨fun x hx => ?_, fun hnone y hy hhash => ?_⟩
    · obtain ⟨hmem, heq⟩ := hr.1 x hx
      exact ⟨Multiset.mem_of_le (hg.sub_le hi hs) hmem, heq⟩
    · refine hr.2 hnone hf.chained y (hg.mem_sub hy ?_) hhash
      rw [hhash]
      exact hs

/-! ## Runs -/

/-- The tables of all runs of insertions and removals, with the elements that were inserted and not
    removed since. `mem` are the results of the allocations. -/
inductive Reach [DecidableEq α] (T : ChType α) : ChTable α → Multiset α → Prop
  | init : Reach T chInitializer 0
  | insert {t t' : ChTable α} {stored : Multiset α} (mem : ℕ → Bool) (elm : α)
      (hrun : Reach T t stored) (hstep : chInsert T mem t (T.tHash elm) elm = .ok (t', .new)) :
      Reach T t' (elm ::ₘ stored)
  | found {t t' : ChTable α} {stored : Multiset α} (mem : ℕ → Bool) (elm old : α)
      (hrun : Reach T t stored)
      (hstep : chInsert T mem t (T.tHash elm) elm = .ok (t', .found old)) : Reach T t' stored
  | failed {t t' : ChTable α} {stored : Multiset α} (mem : ℕ → Bool) (elm : α)
      (hrun : Reach T t stored)
      (hstep : chInsert T mem t (T.tHash elm) elm = .ok (t', .failed)) : Reach T t' stored
  | remove {t t' : ChTable α} {stored : Multiset α} (mem : ℕ → Bool) (needle x : α)
      (hrun : Reach T t stored)
      (hstep : chRemove T mem t (T.tHash needle) needle = .ok (t', some x)) :
      Reach T t' (stored.erase x)
  | missing {t t' : ChTable α} {stored : Multiset α} (mem : ℕ → Bool) (needle : α)
      (hrun : Reach T t stored)
      (hstep : chRemove T mem t (T.tHash needle) needle = .ok (t', none)) : Reach T t' stored

/-- The run lemma: the invariant holds, and the elements are the right ones. -/
theorem Reach.ok [DecidableEq α] {stored : Multiset α} (hr : Reach T t stored) :
    TableOk T t ∧ t.contents = stored ∧ Counted t := by
  induction hr with
  | init =>
    have hzero := contents_of_none (t := (chInitializer : ChTable α)) rfl
    refine ⟨.inl rfl, hzero, ?_⟩
    rw [Counted, hzero]
    rfl
  | insert mem elm _ hstep ih =>
    obtain ⟨hok, helms, hcount⟩ := ih
    have hins := ends_eq (chInsert_ends mem hok elm) hstep
    exact ⟨hins.ok, by rw [(hins.new rfl).1, helms], hins.count hcount⟩
  | found mem elm old _ hstep ih =>
    obtain ⟨hok, helms, hcount⟩ := ih
    have hins := ends_eq (chInsert_ends mem hok elm) hstep
    exact ⟨hins.ok, (hins.found old rfl).1.trans helms, hins.count hcount⟩
  | failed mem elm _ hstep ih =>
    obtain ⟨hok, helms, hcount⟩ := ih
    have hins := ends_eq (chInsert_ends mem hok elm) hstep
    exact ⟨hins.ok, (hins.failed rfl).trans helms, hins.count hcount⟩
  | remove mem needle x _ hstep ih =>
    obtain ⟨hok, helms, hcount⟩ := ih
    have hrem := ends_eq (chRemove_ends mem hok needle) hstep
    refine ⟨hrem.ok, ?_, hrem.count hcount⟩
    rw [← helms, ← (hrem.gone x rfl).1, Multiset.erase_cons_head]
  | missing mem needle _ hstep ih =>
    obtain ⟨hok, helms, hcount⟩ := ih
    have hrem := ends_eq (chRemove_ends mem hok needle) hstep
    exact ⟨hrem.ok, (hrem.missing rfl).1.trans helms, hrem.count hcount⟩

end Bgpd.Chash
