import Bgpd.Chash.Slots
import Bgpd.Lib.Ends

/-!
# Lookup, Removal and Insertion in a Sub Table

A lookup goes along the chain of its hash: the groups from the group of the hash to the first one
without `CH_EVER_FULL`. It ends when there is such a group, and then it has seen every element of
the chain. No change cuts the chain of an element: `CH_EVER_FULL` is never taken back, and the
groups before a new element are full.

## Main results

- `chSubProbe_ends`: the lookups
- `chSubRemove_ends`, `chSubInsert_ends`: what the changes do
-/

namespace Bgpd.Chash

open Bgpd.Lib

variable {α : Type} {T : ChType α} {s s' s₁ s₂ : ChSub α} {eq : α → Bool} {h mask : BitVec 64}
  {x y : α} {b i : ℕ}

/-! ## Chains -/

/-- The group lies on the chain of the hash. -/
def OnChain (s : ChSub α) (h : BitVec 64) (b : ℕ) : Prop :=
  ∃ d, b = (chH2 h + d) % chH2Size ∧
    ∀ e < d, everFull (s.ceTable ((chH2 h + e) % chH2Size)).cgMeta = true

/-- Every element has its hash byte and lies on the chain of its hash. -/
structure Chained (T : ChType α) (s : ChSub α) : Prop where
  hash : ∀ b < chH2Size, ∀ i < 7, ∀ x, used (s.ceTable b).cgMeta i = true →
    (s.ceTable b).cgData i = some x →
      hashByte (s.ceTable b).cgMeta i = (T.tHash x).setWidth 8
  chain : ∀ b < chH2Size, ∀ i < 7, ∀ x, used (s.ceTable b).cgMeta i = true →
    (s.ceTable b).cgData i = some x → OnChain s (T.tHash x) b

/-- Some group was never full. -/
def HasOpen (s : ChSub α) : Prop := ∃ b < chH2Size, everFull (s.ceTable b).cgMeta = false

theorem exists_distance (bucket : ℕ) {b : ℕ} (hb : b < chH2Size) :
    ∃ d < chH2Size, (bucket + d) % chH2Size = b := by
  have hpos : 0 < chH2Size := by decide
  have hlt := Nat.mod_lt bucket hpos
  refine ⟨(b + (chH2Size - bucket % chH2Size)) % chH2Size, Nat.mod_lt _ hpos, ?_⟩
  rw [Nat.add_mod_mod, ← Nat.mod_add_mod]
  rw [show bucket % chH2Size + (b + (chH2Size - bucket % chH2Size)) = b + chH2Size by omega,
    Nat.add_mod_right, Nat.mod_eq_of_lt hb]

/-! ## Candidates -/

/-- The first slot whose element is equal, or no slot has one. -/
theorem candidate_ends (g : ChGroup α) (slots : List ℕ) (hdata : ∀ i ∈ slots, (g.cgData i).isSome) :
    Ends (candidate eq g slots) fun r =>
      (∀ i x, r = some (i, x) → i ∈ slots ∧ g.cgData i = some x ∧ eq x = true) ∧
      (r = none → ∀ i ∈ slots, ∀ x, g.cgData i = some x → eq x = false) := by
  induction slots with
  | nil =>
    rw [candidate, ends_ok_iff]
    simp
  | cons i slots ih =>
    obtain ⟨x, hx⟩ := Option.isSome_iff_exists.1 (hdata i (by simp))
    rw [candidate, hx]
    refine Ends.ite (fun heq => ?_) fun hne => ?_
    · rw [ends_ok_iff]
      refine ⟨fun j y hfound => ?_, by simp⟩
      simp only [Option.some.injEq, Prod.mk.injEq] at hfound
      obtain ⟨rfl, rfl⟩ := hfound
      exact ⟨by simp, hx, heq⟩
    · refine (ih fun j hj => hdata j (by simp [hj])).mono fun r hr => ⟨fun j y hfound => ?_, ?_⟩
      · obtain ⟨hj, hy, heq⟩ := hr.1 j y hfound
        exact ⟨by simp [hj], hy, heq⟩
      · intro hnone j hj y hy
        rcases List.mem_cons.1 hj with rfl | hj
        · rw [hx, Option.some.injEq] at hy
          subst hy
          simpa using hne
        · exact hr.2 hnone j hj y hy

/-- What the comparison of the candidates says about a group. -/
theorem locate_ends (g : ChGroup α) (hdata : g.DataOk) :
    Ends (candidate eq g (slotsOf (chMetaLocate g.cgMeta mask))) fun r =>
      (∀ i x, r = some (i, x) →
        i < 7 ∧ used g.cgMeta i = true ∧ g.cgData i = some x ∧ eq x = true) ∧
      (r = none → ∀ i < 7, ∀ x, used g.cgMeta i = true → hashByte g.cgMeta i = hashByte mask i →
        g.cgData i = some x → eq x = false) := by
  refine (candidate_ends g _ fun i hi => ?_).mono fun r hr => ⟨fun i x hfound => ?_, ?_⟩
  · obtain ⟨hlt, hused⟩ := used_of_mem_locate hi
    exact hdata i hlt hused
  · obtain ⟨hi, hx, heq⟩ := hr.1 i x hfound
    obtain ⟨hlt, hused⟩ := used_of_mem_locate hi
    exact ⟨hlt, hused, hx, heq⟩
  · intro hnone i hi x hused hhash hx
    exact hr.2 hnone i (mem_locate hi hused hhash) x hx

/-! ## The lookups -/

theorem and_everFull : ∀ hits : BitVec 8,
    (hits &&& chEverFull = 0 ↔ hits.getLsbD 7 = false) := by
  decide +kernel

/-- What a lookup from a group on finds: an element, or no element of the chain is the one it looks
    for. -/
structure Probed (table : ℕ → ChGroup α) (eq : α → Bool) (mask : BitVec 64) (bucket : ℕ)
    (r : Option (ℕ × ℕ × α)) : Prop where
  found : ∀ b i x, r = some (b, i, x) → b < chH2Size ∧ i < 7 ∧
    used (table b).cgMeta i = true ∧ (table b).cgData i = some x ∧ eq x = true
  missing : r = none → ∀ d, (∀ e < d, everFull (table ((bucket + e) % chH2Size)).cgMeta = true) →
    ∀ i < 7, ∀ x, used (table ((bucket + d) % chH2Size)).cgMeta i = true →
      hashByte (table ((bucket + d) % chH2Size)).cgMeta i = hashByte mask i →
      (table ((bucket + d) % chH2Size)).cgData i = some x → eq x = false

/-- The induction is on the groups that are left before the loop is back at its start; one of them
    was never full. -/
theorem probe_ends (table : ℕ → ChGroup α) (hdata : ∀ b < chH2Size, (table b).DataOk) (fuel : ℕ) :
    ∀ bucket d, d < fuel → everFull (table ((bucket + d) % chH2Size)).cgMeta = false →
      Ends (probe eq table mask fuel bucket) (Probed table eq mask bucket) := by
  have hpos : 0 < chH2Size := by decide
  induction fuel with
  | zero => intro bucket d hd; omega
  | succ fuel ih =>
    intro bucket d hd hopen
    rw [probe]
    refine (locate_ends _ (hdata _ (Nat.mod_lt bucket hpos))).bind fun r hr => ?_
    cases r with
    | some found =>
      -- found in this group
      obtain ⟨i, x⟩ := found
      obtain ⟨hi, hused, hx, heq⟩ := hr.1 i x rfl
      rw [ends_pure_iff]
      refine ⟨fun b j y hfound => ?_, by simp⟩
      simp only [Option.some.injEq, Prod.mk.injEq] at hfound
      obtain ⟨rfl, rfl, rfl⟩ := hfound
      exact ⟨Nat.mod_lt bucket hpos, hi, hused, hx, heq⟩
    | none =>
      refine Ends.ite (fun hstop => ?_) fun hgo => ?_
      · -- the chain ends here
        rw [and_everFull, everFull_locate] at hstop
        rw [ends_pure_iff]
        refine ⟨by simp, fun _ e hchain i hi x hused hhash hx => ?_⟩
        rcases Nat.eq_zero_or_pos e with rfl | he
        · exact hr.2 rfl i hi x hused hhash hx
        · have hfull := hchain 0 he
          rw [Nat.add_zero, hstop] at hfull
          cases hfull
      -- the group is full, so the chain goes on behind it
      · rw [and_everFull, everFull_locate] at hgo
        have hd0 : d ≠ 0 := by
          rintro rfl
          exact hgo hopen
        have hnext : bucket + 1 + (d - 1) = bucket + d := by omega
        refine (ih (bucket + 1) (d - 1) (by omega) (by rwa [hnext])).mono fun r hrest => ?_
        refine ⟨hrest.found, fun hnone e hchain i hi x hused hhash hx => ?_⟩
        rcases Nat.eq_zero_or_pos e with rfl | he
        · exact hr.2 rfl i hi x hused hhash hx
        -- the chain from the next group on is one shorter
        · have hshift : ∀ k, bucket + 1 + k = bucket + (k + 1) := fun k => by omega
          have hlast : bucket + 1 + (e - 1) = bucket + e := by omega
          refine hrest.missing hnone (e - 1) (fun k hk => ?_) i hi x ?_ ?_ ?_
          · rw [hshift k]
            exact hchain (k + 1) (by omega)
          · rwa [hlast]
          · rwa [hlast]
          · rwa [hlast]

theorem chSubProbe_ends (hdata : ∀ b < chH2Size, (s.ceTable b).DataOk) (hopen : HasOpen s) :
    Ends (chSubProbe s h eq) (Probed s.ceTable eq (chMask h) (chH2 h)) := by
  obtain ⟨b, hb, hfull⟩ := hopen
  obtain ⟨d, hd, hdist⟩ := exists_distance (chH2 h) hb
  rw [← hdist] at hfull
  rw [chSubProbe]
  exact probe_ends s.ceTable hdata chH2Size (chH2 h) d hd hfull

/-- Nothing that is stored under the hash was missed. -/
theorem Probed.none_of_chained {r : Option (ℕ × ℕ × α)}
    (hr : Probed s.ceTable eq (chMask h) (chH2 h) r)
    (hchained : Chained T s) (hnone : r = none) (hx : x ∈ s.contents) (hhash : T.tHash x = h) :
    eq x = false := by
  obtain ⟨b, hb, i, hi, hused, hdata⟩ := mem_contents.1 hx
  have hbyte := hchained.hash b hb i hi x hused hdata
  obtain ⟨d, rfl, hchain⟩ := hchained.chain b hb i hi x hused hdata
  rw [hhash] at hbyte hused hdata hchain
  refine hr.missing hnone d hchain i hi x hused ?_ hdata
  rw [hbyte, hashByte_chMask (by omega)]

/-! ## Removal -/

theorem inc32_eq {n : ℕ} (hn : n < 2 ^ 32 - 1) : inc32 n = n + 1 := by
  rw [inc32, Nat.mod_eq_of_lt (by omega)]

theorem dec32_eq {n : ℕ} (hpos : 0 < n) (hn : n < 2 ^ 32) : dec32 n = n - 1 := by
  rw [dec32]
  omega

theorem total_le {F : ChGroup α → ℕ} {n : ℕ} (hF : ∀ b < chH2Size, F (s.ceTable b) ≤ n) :
    total F s ≤ chH2Size * n := by
  have h := Finset.sum_le_sum (s := Finset.range chH2Size) (f := fun b => F (s.ceTable b))
    (g := fun _ => n) fun b hb => hF b (Finset.mem_range.1 hb)
  simpa [total] using h

theorem Sound.load_le (hs : Sound s) : s.csNumElm + s.csNumTomb ≤ chH2Size * 7 := by
  rw [hs.load]
  apply total_le
  intro b _
  have hle := usedCount_le (s.ceTable b).cgMeta
  unfold weight
  split <;> omega

section Take

variable (hs : Sound s) (hb : b < chH2Size) (hi : i < 7)
  (hused : used (s.ceTable b).cgMeta i = true)

include hs hb hused in
theorem numElm_pos (hi : i < 7) : 0 < s.csNumElm := by
  obtain ⟨x, hx⟩ := Option.isSome_iff_exists.1 (hs.data b hb i hi hused)
  rw [← hs.card]
  exact Multiset.card_pos_iff_exists_mem.2 ⟨x, mem_contents.2 ⟨b, hb, i, hi, hused, hx⟩⟩

theorem take_ceTable (s : ChSub α) (b i c : ℕ) :
    (s.take b i).ceTable c = if c = b then (s.ceTable b).clear i else s.ceTable c := by
  simp only [ChSub.take, ChSub.setGroup, Function.update_apply]

@[simp] theorem take_level : (s.take b i).csLocalLevel = s.csLocalLevel := rfl

include hi in
theorem everFull_take (c : ℕ) :
    everFull ((s.take b i).ceTable c).cgMeta = everFull (s.ceTable c).cgMeta := by
  rw [take_ceTable]
  split_ifs with hc
  · rw [everFull_clear hi, hc]
  · rfl

/-- What is in a slot after the removal was there before. -/
theorem of_used_take {c k : ℕ} (hi : i < 7) (hk : k < 7)
    (huse : used ((s.take b i).ceTable c).cgMeta k = true) :
    used (s.ceTable c).cgMeta k = true ∧
      ((s.take b i).ceTable c).cgData k = (s.ceTable c).cgData k ∧
      hashByte ((s.take b i).ceTable c).cgMeta k = hashByte (s.ceTable c).cgMeta k := by
  rw [take_ceTable] at huse ⊢
  split_ifs at huse ⊢ with hc
  · subst hc
    rw [used_clear hi (by omega), Bool.and_eq_true, Bool.not_eq_true', decide_eq_false_iff_not]
      at huse
    exact ⟨huse.1, cgData_clear huse.2, hashByte_clear hi hk huse.2⟩
  · exact ⟨huse, rfl, rfl⟩

include hs hb hi hused in
theorem take_numElm : (s.take b i).csNumElm + 1 = s.csNumElm := by
  have hpos := numElm_pos hs hb hused hi
  have hle := hs.load_le
  have hmax : chH2Size * 7 < 2 ^ 32 := by decide
  have heq : (s.take b i).csNumElm = dec32 s.csNumElm := rfl
  rw [heq, dec32_eq hpos (by omega)]
  omega

include hs hb hi hused in
/-- Taking a used slot out keeps the counters and marks of the sub table. -/
theorem sound_take : Sound (s.take b i) := by
  have helm := take_numElm hs hb hi hused
  have hload := hs.load_le
  have hmax : chH2Size * 7 < 2 ^ 32 - 1 := by decide
  have hcount := usedCount_clear hi hused
  have hle := usedCount_le (s.ceTable b).cgMeta
  refine ⟨fun c hc k hk huse => ?_, ?_, ?_⟩
  · obtain ⟨huse, hdata, _⟩ := of_used_take hi hk huse
    rw [hdata]
    exact hs.data c hc k hk huse
  · have hsum := total_setGroup (s := s) (g := (s.ceTable b).clear i)
      (fun g => usedCount g.cgMeta) hb
    have heq : total (fun g => usedCount g.cgMeta) (s.take b i) =
        total (fun g => usedCount g.cgMeta) (s.setGroup b ((s.ceTable b).clear i)) :=
      total_congr fun _ _ => rfl
    have hold := hs.numElm
    omega
  · have hsum := total_setGroup (s := s) (g := (s.ceTable b).clear i)
      (fun g => tombCount g.cgMeta) hb
    have heq : total (fun g => tombCount g.cgMeta) (s.take b i) =
        total (fun g => tombCount g.cgMeta) (s.setGroup b ((s.ceTable b).clear i)) :=
      total_congr fun _ _ => rfl
    have hold := hs.numTomb
    have htomb : (s.take b i).csNumTomb =
        if everFull (s.ceTable b).cgMeta then inc32 s.csNumTomb else s.csNumTomb := rfl
    simp only [tombCount, everFull_clear hi] at hsum
    simp only [tombCount] at heq hold
    rw [htomb, inc32_eq (by omega)]
    simp only [tombCount]
    split_ifs at hsum ⊢ <;> omega

include hs hb hi hused in
theorem take_load :
    (s.take b i).csNumElm + (s.take b i).csNumTomb ≤ s.csNumElm + s.csNumTomb := by
  have helm := take_numElm hs hb hi hused
  have hload := hs.load_le
  have hmax : chH2Size * 7 < 2 ^ 32 - 1 := by decide
  have htomb : (s.take b i).csNumTomb =
      if everFull (s.ceTable b).cgMeta then inc32 s.csNumTomb else s.csNumTomb := rfl
  rw [htomb, inc32_eq (by omega)]
  split_ifs <;> omega

include hb hi hused in
theorem contents_take (hx : (s.ceTable b).cgData i = some x) :
    x ::ₘ (s.take b i).contents = s.contents := by
  have hsum := contents_setGroup (s := s) (g := (s.ceTable b).clear i) hb
  have heq : (s.take b i).contents = (s.setGroup b ((s.ceTable b).clear i)).contents :=
    contents_congr fun _ _ => rfl
  rw [← contents_clear hi hused hx, ← heq, Multiset.add_cons, ← Multiset.cons_add] at hsum
  exact add_right_cancel hsum

include hi in
theorem chained_take (hc : Chained T s) : Chained T (s.take b i) := by
  refine ⟨fun c hlt k hk x huse hx => ?_, fun c hlt k hk x huse hx => ?_⟩
  · obtain ⟨hold, hdata, hhash⟩ := of_used_take hi hk huse
    rw [hdata] at hx
    rw [hhash]
    exact hc.hash c hlt k hk x hold hx
  · obtain ⟨hold, hdata, _⟩ := of_used_take hi hk huse
    rw [hdata] at hx
    obtain ⟨d, hd, hchain⟩ := hc.chain c hlt k hk x hold hx
    refine ⟨d, hd, fun e he => ?_⟩
    rw [everFull_take hi]
    exact hchain e he

end Take

/-- What `ch_sub_remove` does. -/
structure Removed (T : ChType α) (s : ChSub α) (h : BitVec 64) (needle : α) (s' : ChSub α)
    (v : Option α) : Prop where
  sound : Sound s'
  level : s'.csLocalLevel = s.csLocalLevel
  load : s'.csNumElm + s'.csNumTomb ≤ s.csNumElm + s.csNumTomb
  same : v = none → s' = s
  gone : ∀ x, v = some x → x ::ₘ s'.contents = s.contents ∧ T.tEqual x needle = true
  chained : Chained T s → Chained T s'
  missing : Chained T s → v = none → ∀ y ∈ s.contents, T.tHash y = h → T.tEqual y needle = false

/-- The removal ends: it takes an equal element out or there was none. -/
theorem chSubRemove_ends (hs : Sound s) (hopen : HasOpen s) (needle : α) :
    Ends (chSubRemove T s h needle) fun r => Removed T s h needle r.1 r.2 := by
  rw [chSubRemove]
  refine (chSubProbe_ends hs.data hopen).bind fun r hr => ?_
  cases r with
  | none =>
    rw [ends_pure_iff]
    refine ⟨hs, rfl, le_rfl, fun _ => rfl, by simp, id, fun hc _ y hy hhash => ?_⟩
    exact hr.none_of_chained hc rfl hy hhash
  | some found =>
    obtain ⟨b, i, x⟩ := found
    obtain ⟨hb, hi, hused, hx, heq⟩ := hr.found b i x rfl
    rw [ends_pure_iff]
    refine ⟨sound_take hs hb hi hused, rfl, take_load hs hb hi hused, by simp, ?_, chained_take hi,
      by simp⟩
    intro y hy
    rw [Option.some.injEq] at hy
    subst hy
    exact ⟨contents_take hb hi hused hx, heq⟩

/-- `ch_sub_locate` and `ch_sub_find` find an element of the sub table, and miss none of the
    hash. -/
theorem chSubLocate_ends (hs : Sound s) (hopen : HasOpen s) :
    Ends (chSubLocate s h eq) fun r =>
      (∀ x, r = some x → x ∈ s.contents ∧ eq x = true) ∧
      (r = none → Chained T s → ∀ y ∈ s.contents, T.tHash y = h → eq y = false) := by
  rw [chSubLocate]
  refine (chSubProbe_ends hs.data hopen).bind fun r hr => ?_
  rw [ends_pure_iff]
  cases r with
  | none =>
    refine ⟨by simp, fun _ hc y hy hhash => ?_⟩
    exact hr.none_of_chained hc rfl hy hhash
  | some found =>
    obtain ⟨b, i, x⟩ := found
    obtain ⟨hb, hi, hused, hx, heq⟩ := hr.found b i x rfl
    refine ⟨fun y hy => ?_, by simp⟩
    rw [Option.map_some, Option.some.injEq] at hy
    subst hy
    exact ⟨mem_contents.2 ⟨b, hb, i, hi, hused, hx⟩, heq⟩

/-! ## The marks of an insertion -/

/-- Full groups are marked, nothing else is changed. -/
structure Marked (s s' : ChSub α) : Prop where
  data : ∀ b, (s'.ceTable b).cgData = (s.ceTable b).cgData
  used : ∀ b, ∀ i < 7, Chash.used (s'.ceTable b).cgMeta i = Chash.used (s.ceTable b).cgMeta i
  hash : ∀ b, ∀ i < 7, hashByte (s'.ceTable b).cgMeta i = hashByte (s.ceTable b).cgMeta i
  mono : ∀ b, everFull (s.ceTable b).cgMeta = true → everFull (s'.ceTable b).cgMeta = true
  full : ∀ b, everFull (s'.ceTable b).cgMeta = true → everFull (s.ceTable b).cgMeta = true ∨
    ∀ i < 7, Chash.used (s.ceTable b).cgMeta i = true
  numElm : s'.csNumElm = s.csNumElm
  numTomb : s'.csNumTomb = s.csNumTomb
  level : s'.csLocalLevel = s.csLocalLevel

theorem Marked.refl (s : ChSub α) : Marked s s :=
  ⟨fun _ => rfl, fun _ _ _ => rfl, fun _ _ _ => rfl, fun _ h => h, fun _ h => .inl h, rfl, rfl, rfl⟩

theorem Marked.trans (h₁ : Marked s s₁) (h₂ : Marked s₁ s₂) : Marked s s₂ where
  data b := (h₂.data b).trans (h₁.data b)
  used b i hi := (h₂.used b i hi).trans (h₁.used b i hi)
  hash b i hi := (h₂.hash b i hi).trans (h₁.hash b i hi)
  mono b hb := h₂.mono b (h₁.mono b hb)
  full b hb := by
    rcases h₂.full b hb with hmid | hfull
    · exact h₁.full b hmid
    · right
      intro i hi
      rw [← h₁.used b i hi]
      exact hfull i hi
  numElm := h₂.numElm.trans h₁.numElm
  numTomb := h₂.numTomb.trans h₁.numTomb
  level := h₂.level.trans h₁.level

theorem mark_ceTable (s : ChSub α) (b c : ℕ) :
    (s.mark b).ceTable c =
      if c = b then { s.ceTable b with cgMeta := cgMetaSetFlags (s.ceTable b).cgMeta chEverFull }
      else s.ceTable c := by
  simp only [ChSub.mark, ChSub.setGroup, Function.update_apply]

/-- Marking a full group only sets its overflow mark. -/
theorem marked_mark (hfull : ∀ i < 7, used (s.ceTable b).cgMeta i = true) :
    Marked s (s.mark b) := by
  refine ⟨fun c => ?_, fun c i hi => ?_, fun c i hi => ?_, fun c hc => ?_, fun c hc => ?_, rfl, rfl,
    rfl⟩
  · rw [mark_ceTable]
    split_ifs with hcb
    · rw [hcb]
    · rfl
  · rw [mark_ceTable]
    split_ifs with hcb
    · subst hcb
      rw [used_setFlags _ (by omega), getLsbD_chEverFull, decide_eq_false (by omega), Bool.or_false]
    · rfl
  · rw [mark_ceTable]
    split_ifs with hcb
    · subst hcb
      exact hashByte_setFlags _ hi
    · rfl
  · rw [mark_ceTable]
    split_ifs with hcb
    · rw [everFull_eq_used, used_setFlags _ (by omega), getLsbD_chEverFull]
      simp
    · exact hc
  · rw [mark_ceTable] at hc
    split_ifs at hc with hcb
    · subst hcb
      exact .inr hfull
    · exact .inl hc

/-- Marks do not change what the groups hold and weigh. -/
theorem Marked.counts (hm : Marked s s') : ∀ b,
    usedCount (s'.ceTable b).cgMeta = usedCount (s.ceTable b).cgMeta ∧
      tombCount (s'.ceTable b).cgMeta = tombCount (s.ceTable b).cgMeta ∧
      (s'.ceTable b).contents = (s.ceTable b).contents := by
  intro b
  have hcount : usedCount (s'.ceTable b).cgMeta = usedCount (s.ceTable b).cgMeta := by
    apply Finset.sum_congr rfl
    intro i hi
    rw [hm.used b i (Finset.mem_range.1 hi)]
  refine ⟨hcount, ?_, ?_⟩
  · rw [tombCount, tombCount, hcount]
    by_cases hold : everFull (s.ceTable b).cgMeta = true
    · rw [hold, hm.mono b hold]
    · by_cases hnew : everFull (s'.ceTable b).cgMeta = true
      · rw [if_pos hnew, if_neg hold, usedCount_eq ((hm.full b hnew).resolve_left hold)]
      · rw [if_neg hnew, if_neg hold]
  · apply Finset.sum_congr rfl
    intro i hi
    rw [slotElm, slotElm, hm.used b i (Finset.mem_range.1 hi), hm.data b]

theorem Marked.sound (hm : Marked s s') (hs : Sound s) : Sound s' := by
  refine ⟨fun b hb i hi huse => ?_, ?_, ?_⟩
  · rw [hm.used b i hi] at huse
    rw [hm.data b]
    exact hs.data b hb i hi huse
  · rw [hm.numElm, hs.numElm]
    exact total_congr fun b _ => (hm.counts b).1.symm
  · rw [hm.numTomb, hs.numTomb]
    exact total_congr fun b _ => (hm.counts b).2.1.symm

theorem Marked.contents (hm : Marked s s') : s'.contents = s.contents :=
  contents_congr fun b _ => (hm.counts b).2.2

theorem Marked.onChain (hm : Marked s s') (hchain : OnChain s h b) : OnChain s' h b := by
  obtain ⟨d, hd, hfull⟩ := hchain
  exact ⟨d, hd, fun e he => hm.mono _ (hfull e he)⟩

theorem Marked.chained (hm : Marked s s') (hc : Chained T s) : Chained T s' := by
  refine ⟨fun b hb i hi x huse hx => ?_, fun b hb i hi x huse hx => ?_⟩
  · rw [hm.used b i hi] at huse
    rw [hm.data b] at hx
    rw [hm.hash b i hi]
    exact hc.hash b hb i hi x huse hx
  · rw [hm.used b i hi] at huse
    rw [hm.data b] at hx
    exact hm.onChain (hc.chain b hb i hi x huse hx)

/-! ## The loop of the insertion -/

/-- The slot is free, and the groups before it are marked. -/
structure FirstFree (s : ChSub α) (bucket : ℕ) (p : ℕ × ℕ) : Prop where
  slot : p.2 < 7
  free : used (s.ceTable p.1).cgMeta p.2 = false
  chain : ∃ d, p.1 = (bucket + d) % chH2Size ∧
    ∀ e < d, everFull (s.ceTable ((bucket + e) % chH2Size)).cgMeta = true

/-- What the loop finds: an equal element, or a free slot and no equal element on the chain. -/
structure Searched (s : ChSub α) (eq : α → Bool) (mask : BitVec 64) (bucket : ℕ)
    (ins : Option (ℕ × ℕ)) (s' : ChSub α) (r : α ⊕ ℕ × ℕ) : Prop where
  marked : Marked s s'
  found : ∀ x, r = .inl x → x ∈ s.contents ∧ eq x = true
  slot : ∀ p, r = .inr p → (∀ q, ins = some q → p = q) ∧ (ins = none → FirstFree s' bucket p)
  missing : ∀ p, r = .inr p → ∀ d,
    (∀ e < d, everFull (s.ceTable ((bucket + e) % chH2Size)).cgMeta = true) →
    ∀ i < 7, ∀ x, used (s.ceTable ((bucket + d) % chH2Size)).cgMeta i = true →
      hashByte (s.ceTable ((bucket + d) % chH2Size)).cgMeta i = hashByte mask i →
      (s.ceTable ((bucket + d) % chH2Size)).cgData i = some x → eq x = false

/-- The next round of the loop: what it finds is right for this round as well. -/
theorem Searched.step {bucket : ℕ} {ins ins' : Option (ℕ × ℕ)} {r : α ⊕ ℕ × ℕ}
    (hr : Searched s₁ eq mask (bucket + 1) ins' s' r) (hm : Marked s s₁)
    (hhere : ∀ i < 7, ∀ x, used (s.ceTable (bucket % chH2Size)).cgMeta i = true →
      hashByte (s.ceTable (bucket % chH2Size)).cgMeta i = hashByte mask i →
      (s.ceTable (bucket % chH2Size)).cgData i = some x → eq x = false)
    (hslot : ∀ p, (∀ q, ins' = some q → p = q) ∧ (ins' = none → FirstFree s' (bucket + 1) p) →
      (∀ q, ins = some q → p = q) ∧ (ins = none → FirstFree s' bucket p)) :
    Searched s eq mask bucket ins s' r := by
  refine ⟨hm.trans hr.marked, fun x hx => ?_, fun p hp => hslot p (hr.slot p hp),
    fun p hp d hchain i hi x hused hhash hx => ?_⟩
  · rw [← hm.contents]
    exact hr.found x hx
  · rcases Nat.eq_zero_or_pos d with rfl | hd
    · exact hhere i hi x hused hhash hx
    · have hlast : bucket + 1 + (d - 1) = bucket + d := by omega
      have hmiss := hr.missing p hp (d - 1)
      rw [hlast] at hmiss
      refine hmiss (fun e he => ?_) i hi x ?_ ?_ ?_
      · have hshift : bucket + 1 + e = bucket + (e + 1) := by omega
        rw [hshift]
        exact hm.mono _ (hchain (e + 1) (by omega))
      · rwa [hm.used _ i hi]
      · rwa [hm.hash _ i hi]
      · rwa [hm.data]

/-- The induction is on the groups that are left before the loop is back at its start; one of them
    was never full and has a free slot. -/
theorem insertLoop_ends (fuel : ℕ) :
    ∀ (bucket d : ℕ) (s : ChSub α) (ins : Option (ℕ × ℕ)),
      (∀ b < chH2Size, (s.ceTable b).DataOk) → d < fuel →
      everFull (s.ceTable ((bucket + d) % chH2Size)).cgMeta = false →
      (∃ i < 7, used (s.ceTable ((bucket + d) % chH2Size)).cgMeta i = false) →
      Ends (insertLoop eq mask fuel bucket s ins) fun r =>
        Searched s eq mask bucket ins r.1 r.2 := by
  have hpos : 0 < chH2Size := by decide
  induction fuel with
  | zero => intro bucket d s ins _ hd; omega
  | succ fuel ih =>
    intro bucket d s ins hdata hd hopen hfree
    have hb := Nat.mod_lt bucket hpos
    rw [insertLoop]
    refine (locate_ends _ (hdata _ hb)).bind fun r hr => ?_
    cases r with
    | some found =>
      -- found in this group
      obtain ⟨i, x⟩ := found
      obtain ⟨hi, hused, hx, heq⟩ := hr.1 i x rfl
      rw [ends_pure_iff]
      refine ⟨Marked.refl s, fun y hy => ?_, by simp, by simp⟩
      rw [Sum.inl.injEq] at hy
      subst hy
      exact ⟨mem_contents.2 ⟨_, hb, i, hi, hused, hx⟩, heq⟩
    | none =>
      have hhere := hr.2 rfl
      have hnext : d ≠ 0 → bucket + 1 + (d - 1) = bucket + d := fun h => by omega
      refine Ends.ite (fun hempty => ?_) fun hsome => ?_
      · -- the group is full, it is marked and passed
        have hfull := fun i hi => used_of_empties (i := i) hempty hi
        have hm := marked_mark hfull
        have hd0 : d ≠ 0 := by
          rintro rfl
          obtain ⟨i, hi, hunused⟩ := hfree
          rw [Nat.add_zero, hfull i hi] at hunused
          cases hunused
        have hother : (bucket + d) % chH2Size ≠ bucket % chH2Size := by
          intro heq
          obtain ⟨i, hi, hunused⟩ := hfree
          rw [heq, hfull i hi] at hunused
          cases hunused
        have hrest := ih (bucket + 1) (d - 1) (s.mark (bucket % chH2Size)) ins
        rw [hnext hd0, mark_ceTable, if_neg hother] at hrest
        refine (hrest (fun b hb i hi huse => ?_) (by omega) hopen hfree).mono fun r hr => ?_
        · rw [hm.used b i hi] at huse
          rw [hm.data]
          exact hdata b hb i hi huse
        · refine hr.step hm hhere fun p hp => ⟨hp.1, fun hnone => ?_⟩
          obtain ⟨hslot, hunused, e, he, hchain⟩ := hp.2 hnone
          refine ⟨hslot, hunused, e + 1, by rw [he]; congr 1; omega, fun k hk => ?_⟩
          -- the group that was marked is in the chain now
          rcases Nat.eq_zero_or_pos k with rfl | hk0
          · apply hr.marked.mono
            rw [Nat.add_zero, mark_ceTable, if_pos rfl, everFull_eq_used,
              used_setFlags _ (by omega),
              getLsbD_chEverFull]
            simp
          · have hk1 := hchain (k - 1) (by omega)
            rwa [show bucket + 1 + (k - 1) = bucket + k by omega] at hk1
      · obtain ⟨hslot, hunused⟩ := free_of_empties hsome
        refine Ends.ite (fun hgo => ?_) fun hstop => ?_
        · -- a tombstone is remembered, but an equal element may follow
          rw [checkFlags_everFull] at hgo
          have hd0 : d ≠ 0 := by
            rintro rfl
            rw [Nat.add_zero, hgo] at hopen
            cases hopen
          have hrest := ih (bucket + 1) (d - 1) s
            (some (ins.getD (firstEmpty s (bucket % chH2Size)))) hdata (by omega)
          rw [hnext hd0] at hrest
          refine (hrest hopen hfree).mono fun r hr => ?_
          refine hr.step (Marked.refl s) hhere fun p hp => ?_
          have hp' := hp.1 _ rfl
          -- the slot is the first tombstone that was seen
          refine ⟨fun q hq => ?_, fun hnone => ?_⟩
          · rw [hp', hq, Option.getD_some]
          · rw [hp', hnone, Option.getD_none]
            refine ⟨hslot, ?_, 0, rfl, fun e he => by omega⟩
            exact (hr.marked.used _ _ hslot).trans hunused
        · -- the chain ends here
          rw [checkFlags_everFull] at hstop
          rw [ends_pure_iff]
          refine
            ⟨Marked.refl s, by simp, fun p hp => ?_, fun p _ e hchain i hi x hused hhash hx => ?_⟩
          -- the slot is the first one that is free
          · rw [Sum.inr.injEq] at hp
            subst hp
            refine ⟨fun q hq => ?_, fun hnone => ?_⟩
            · rw [hq, Option.getD_some]
            · rw [hnone, Option.getD_none]
              exact ⟨hslot, hunused, 0, rfl, fun e he => by omega⟩
          · rcases Nat.eq_zero_or_pos e with rfl | he
            · exact hhere i hi x hused hhash hx
            · exact absurd (hchain 0 he) hstop

/-! ## The new element -/

section Place

variable (hs : Sound s) (hb : b < chH2Size) (hi : i < 7)
  (hfree : used (s.ceTable b).cgMeta i = false)

theorem place_ceTable (s : ChSub α) (b i c : ℕ) (h : BitVec 64) (x : α) :
    (s.place b i h x).ceTable c = if c = b then (s.ceTable b).put i h x else s.ceTable c := by
  simp only [ChSub.place, ChSub.setGroup, Function.update_apply]

include hi in
theorem everFull_place (c : ℕ) :
    everFull ((s.place b i h x).ceTable c).cgMeta = everFull (s.ceTable c).cgMeta := by
  rw [place_ceTable]
  split_ifs with hc
  · rw [everFull_put hi, hc]
  · rfl

/-- What is in a slot is the new element or was there before. -/
theorem of_used_place {c k : ℕ} (hi : i < 7) (hk : k < 7)
    (huse : used ((s.place b i h x).ceTable c).cgMeta k = true) :
    (c = b ∧ k = i ∧ ((s.place b i h x).ceTable c).cgData k = some x ∧
      hashByte ((s.place b i h x).ceTable c).cgMeta k = h.setWidth 8) ∨
    (used (s.ceTable c).cgMeta k = true ∧
      ((s.place b i h x).ceTable c).cgData k = (s.ceTable c).cgData k ∧
      hashByte ((s.place b i h x).ceTable c).cgMeta k = hashByte (s.ceTable c).cgMeta k) := by
  rw [place_ceTable] at huse ⊢
  split_ifs at huse ⊢ with hc
  · subst hc
    by_cases hki : k = i
    · left
      rw [cgData_put, hashByte_put hi hk, if_pos hki, if_pos hki]
      exact ⟨rfl, hki, rfl, rfl⟩
    · right
      rw [cgData_put, hashByte_put hi hk, if_neg hki, if_neg hki]
      rw [used_put hi (by omega), decide_eq_false hki, Bool.or_false] at huse
      exact ⟨huse, rfl, rfl⟩
  · exact .inr ⟨huse, rfl, rfl⟩

include hs hb hi hfree in
/-- A placed element adds one, and takes a tombstone's place in a group that was full. -/
theorem place_numbers :
    (s.place b i h x).csNumElm = s.csNumElm + 1 ∧
      (s.place b i h x).csNumTomb =
        (if everFull (s.ceTable b).cgMeta then s.csNumTomb - 1 else s.csNumTomb) ∧
      (everFull (s.ceTable b).cgMeta = true → 0 < s.csNumTomb) := by
  have hle := hs.load_le
  have hmax : chH2Size * 7 < 2 ^ 32 - 1 := by decide
  have hpos : everFull (s.ceTable b).cgMeta = true → 0 < s.csNumTomb := by
    intro hfull
    rw [hs.numTomb, total, Finset.sum_pos_iff]
    refine ⟨b, Finset.mem_range.2 hb, ?_⟩
    have hcount := usedCount_put (h := h) (x := x) hi hfree
    have hle := usedCount_le ((s.ceTable b).put i h x).cgMeta
    rw [tombCount, if_pos hfull]
    omega
  have helm : (s.place b i h x).csNumElm = inc32 s.csNumElm := rfl
  have htomb : (s.place b i h x).csNumTomb =
      if cgMetaCheckFlags ((s.ceTable b).put i h x).cgMeta chEverFull then dec32 s.csNumTomb
      else s.csNumTomb := rfl
  rw [helm, htomb, checkFlags_everFull, everFull_put hi, inc32_eq (by omega)]
  refine ⟨rfl, ?_, hpos⟩
  split_ifs with hfull
  · exact dec32_eq (hpos hfull) (by omega)
  · rfl

include hs hb hi hfree in
/-- Placing an element in a free slot keeps the counters and marks. -/
theorem sound_place : Sound (s.place b i h x) := by
  obtain ⟨helm, htomb, hpos⟩ := place_numbers (h := h) (x := x) hs hb hi hfree
  have hcount := usedCount_put (h := h) (x := x) hi hfree
  have hle := usedCount_le ((s.ceTable b).put i h x).cgMeta
  refine ⟨fun c hc k hk huse => ?_, ?_, ?_⟩
  · rcases of_used_place hi hk huse with ⟨_, _, hdata, _⟩ | ⟨hold, hdata, _⟩
    · rw [hdata]
      rfl
    · rw [hdata]
      exact hs.data c hc k hk hold
  · have hsum := total_setGroup (s := s) (g := (s.ceTable b).put i h x)
      (fun g => usedCount g.cgMeta) hb
    have heq : total (fun g => usedCount g.cgMeta) (s.place b i h x) =
        total (fun g => usedCount g.cgMeta) (s.setGroup b ((s.ceTable b).put i h x)) :=
      total_congr fun _ _ => rfl
    have hold := hs.numElm
    omega
  · have hsum := total_setGroup (s := s) (g := (s.ceTable b).put i h x)
      (fun g => tombCount g.cgMeta) hb
    have heq : total (fun g => tombCount g.cgMeta) (s.place b i h x) =
        total (fun g => tombCount g.cgMeta) (s.setGroup b ((s.ceTable b).put i h x)) :=
      total_congr fun _ _ => rfl
    have hold := hs.numTomb
    rw [htomb, heq]
    simp only [tombCount, everFull_put hi] at hsum hold ⊢
    split_ifs at hsum ⊢ with hfull
    · have hpos := hpos hfull
      omega
    · omega

include hb hi hfree in
theorem contents_place : (s.place b i h x).contents = x ::ₘ s.contents := by
  have hsum := contents_setGroup (s := s) (g := (s.ceTable b).put i h x) hb
  have heq : (s.place b i h x).contents = (s.setGroup b ((s.ceTable b).put i h x)).contents :=
    contents_congr fun _ _ => rfl
  rw [contents_put hi hfree, ← heq, Multiset.add_cons, ← Multiset.cons_add] at hsum
  exact add_right_cancel hsum

include hi in
theorem onChain_place {h' : BitVec 64} {c : ℕ} (hc : OnChain s h' c) :
    OnChain (s.place b i h x) h' c := by
  obtain ⟨d, hd, hchain⟩ := hc
  refine ⟨d, hd, fun e he => ?_⟩
  rw [everFull_place hi]
  exact hchain e he

include hi in
theorem chained_place (hc : Chained T s) (hchain : OnChain s (T.tHash x) b) :
    Chained T (s.place b i (T.tHash x) x) := by
  refine ⟨fun c hlt k hk y huse hy => ?_, fun c hlt k hk y huse hy => ?_⟩
  · rcases of_used_place hi hk huse with ⟨_, _, hdata, hhash⟩ | ⟨hold, hdata, hhash⟩
    · rw [hdata, Option.some.injEq] at hy
      rw [hhash, hy]
    · rw [hdata] at hy
      rw [hhash]
      exact hc.hash c hlt k hk y hold hy
  · rcases of_used_place hi hk huse with ⟨hcb, _, hdata, _⟩ | ⟨hold, hdata, _⟩
    · rw [hdata, Option.some.injEq] at hy
      rw [← hy, hcb]
      exact onChain_place hi hchain
    · rw [hdata] at hy
      exact onChain_place hi (hc.chain c hlt k hk y hold hy)

end Place

/-- What `ch_sub_insert` does. -/
structure Inserted (T : ChType α) (s : ChSub α) (h : BitVec 64) (x : α) (s' : ChSub α)
    (v : Option α) : Prop where
  sound : Sound s'
  level : s'.csLocalLevel = s.csLocalLevel
  tomb : s'.csNumTomb ≤ s.csNumTomb
  load : s'.csNumElm + s'.csNumTomb ≤ s.csNumElm + s.csNumTomb + 1
  new : v = none → s'.contents = x ::ₘ s.contents
  found : ∀ y, v = some y → s'.contents = s.contents ∧ y ∈ s.contents ∧ T.tEqual y x = true
  chained : Chained T s → h = T.tHash x → Chained T s'
  missing : Chained T s → v = none → ∀ y ∈ s.contents, T.tHash y = h → T.tEqual y x = false

/-- The insertion ends: it found an equal element or added the new one. -/
theorem chSubInsert_ends (hs : Sound s) (hload : s.csNumElm + s.csNumTomb < chH2Size * 7) (x : α) :
    Ends (chSubInsert T s h x) fun r => Inserted T s h x r.1 r.2 := by
  obtain ⟨b, hb, hopen, hfree⟩ := hs.exists_open hload
  obtain ⟨d, hd, hdist⟩ := exists_distance (chH2 h) hb
  rw [← hdist] at hopen hfree
  rw [chSubInsert]
  refine (insertLoop_ends chH2Size (chH2 h) d s none hs.data hd hopen hfree).bind fun r hr => ?_
  obtain ⟨s₁, r⟩ := r
  -- the walk only marks groups that are full
  have hm := hr.marked
  have hs₁ := hm.sound hs
  cases r with
  | inl y =>
    -- an equal element was found
    obtain ⟨hy, heq⟩ := hr.found y rfl
    rw [ends_pure_iff]
    refine ⟨hs₁, hm.level, hm.numTomb.le, ?_, by simp, fun z hz => ?_, fun hc _ => hm.chained hc,
      by simp⟩
    · have helm := hm.numElm
      have htomb := hm.numTomb
      dsimp only at helm htomb ⊢
      omega
    · rw [Option.some.injEq] at hz
      subst hz
      exact ⟨hm.contents, hy, heq⟩
  | inr p =>
    obtain ⟨c, i⟩ := p
    obtain ⟨hslot, hunused, e, he, hchain⟩ := (hr.slot (c, i) rfl).2 rfl
    have hc : c < chH2Size := by
      rw [show c = (chH2 h + e) % chH2Size from he]
      exact Nat.mod_lt _ (by decide)
    have hnum := place_numbers (h := h) (x := x) hs₁ hc hslot hunused
    rw [ends_pure_iff]
    refine ⟨sound_place hs₁ hc hslot hunused, hm.level, ?_, ?_, fun _ => ?_, by simp,
      fun hch hh => ?_, fun hch _ y hy hhash => ?_⟩
    -- a tombstone is used again, or the load grows by one
    · rw [hnum.2.1, ← hm.numTomb]
      split_ifs <;> omega
    · rw [hnum.1, hnum.2.1, ← hm.numElm, ← hm.numTomb]
      split_ifs <;> omega
    · rw [contents_place hc hslot hunused, hm.contents]
    · subst hh
      exact chained_place hslot (hm.chained hch) ⟨e, he, hchain⟩
    -- an element that hashes like the new one is on the chain that was searched
    · obtain ⟨k, hk, j, hj, hused, hdata⟩ := mem_contents.1 hy
      have hbyte := hch.hash k hk j hj y hused hdata
      obtain ⟨d', rfl, hfull⟩ := hch.chain k hk j hj y hused hdata
      rw [hhash] at hbyte hused hdata hfull
      refine hr.missing (c, i) rfl d' hfull j hj y hused ?_ hdata
      rw [hbyte, hashByte_chMask (by omega)]

end Bgpd.Chash
