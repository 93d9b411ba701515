import Bgpd.Rde.DecideCanon

/-!
# When Two Paths Tie

The steps of `prefix_cmp` with route age as one ranking, and the pairs of paths that no step
tells apart. On those the code would call `fatalx`; on all other pairs of eligible paths the two
orders of the arguments give opposite signs.

## Main results

- `Tied`: the paths agree in everything that is compared
- `prefixCmp_eq_zero_iff`, `prefixCmp_opposite`: the comparison of two eligible paths
- `ageVerdict`: the comparison in terms of the ranking with route age
-/

namespace Bgpd.Rde

open Bgpd.Lib

variable {c : DecideCtx} {p q : Prefix}

/-! ## Steps 6 to 13 with route age -/

/-- Step 9, which is skipped without route-age evaluation. -/
def ageKey (c : DecideCtx) (p : Prefix) : ℤ := if c.flags.routeage then p.lastchange else 0

/-- Steps 6 to 13 as one key. -/
def agedTailKey (c : DecideCtx) (p : Prefix) : List ℤ :=
  (if (c.peer p.peer).ebgp then 0 else 1) :: -(p.asp.weight : ℤ) :: ageKey c p :: tieKey c p

theorem prefixCmpTie_of_eq (h : tieKey c p = tieKey c q) : prefixCmpTie c p q = 0 := by
  simp only [tieKey, List.cons.injEq, Nat.cast_inj] at h
  obtain ⟨h₁, h₂, h₃, h⟩ := h
  have haid := BgpdAddr.aid_of_aidVal h₃
  by_cases hf : (c.peer p.peer).remoteAddr.aid = some .inet ∨
      (c.peer p.peer).remoteAddr.aid = some .inet6
  · have hf' : (c.peer q.peer).remoteAddr.aid = some .inet ∨
        (c.peer q.peer).remoteAddr.aid = some .inet6 := haid ▸ hf
    rw [if_pos hf, if_pos hf', List.cons.injEq, List.cons.injEq, Nat.cast_inj, Nat.cast_inj] at h
    simp [prefixCmpTie, h₁, h₂, h₃, h.1, h.2.1]
  · simp [prefixCmpTie, h₁, h₂, h₃, hf]

/-- Steps 6 to 13 compare the keys. -/
theorem prefixCmpTail_aged_lt (h : agedTailKey c p < agedTailKey c q) :
    prefixCmpTail c p q > 0 ∧ prefixCmpTail c q p < 0 := by
  simp only [agedTailKey, List.cons_lt_cons_iff, neg_lt_neg_iff, neg_inj, Nat.cast_lt,
    Nat.cast_inj] at h
  rcases h with h | ⟨h₁, h⟩
  · cases hp : (c.peer p.peer).ebgp <;> cases hq : (c.peer q.peer).ebgp <;> simp [hp, hq] at h
    simp [prefixCmpTail, hp, hq]
  · have he : (c.peer p.peer).ebgp = (c.peer q.peer).ebgp := by
      cases hp : (c.peer p.peer).ebgp <;> cases hq : (c.peer q.peer).ebgp <;> simp_all
    rcases h with h | ⟨h₂, h | ⟨h₃, h⟩⟩
    · simp [prefixCmpTail, he, h, h.not_gt]
    · unfold ageKey at h
      split_ifs at h with hra
      · have hlt : p.lastchange < q.lastchange := by exact_mod_cast h
        simp [prefixCmpTail, he, h₂, hra, hlt, hlt.not_gt]
      · exact absurd h (lt_irrefl _)
    · obtain ⟨t₁, t₂⟩ := prefixCmpTie_lt h
      have hage : ¬(c.flags.routeage ∧ p.lastchange < q.lastchange) ∧
          ¬(c.flags.routeage ∧ q.lastchange < p.lastchange) := by
        unfold ageKey at h₃
        split_ifs at h₃ with hra
        · have heq : p.lastchange = q.lastchange := by exact_mod_cast h₃
          simp [heq]
        · simp [hra]
      simp [prefixCmpTail, he, h₂, hage.1, hage.2, t₁, t₂]

theorem prefixCmpTail_of_eq (h : agedTailKey c p = agedTailKey c q) : prefixCmpTail c p q = 0 := by
  simp only [agedTailKey, List.cons.injEq, neg_inj, Nat.cast_inj] at h
  obtain ⟨h₁, h₂, h₃, h⟩ := h
  have he : (c.peer p.peer).ebgp = (c.peer q.peer).ebgp := by
    cases hp : (c.peer p.peer).ebgp <;> cases hq : (c.peer q.peer).ebgp <;> simp_all
  have hage : ¬(c.flags.routeage ∧ p.lastchange < q.lastchange) ∧
      ¬(c.flags.routeage ∧ q.lastchange < p.lastchange) := by
    unfold ageKey at h₃
    split_ifs at h₃ with hra
    · have heq : p.lastchange = q.lastchange := by exact_mod_cast h₃
      simp [heq]
    · simp [hra]
  simp [prefixCmpTail, he, h₂, hage.1, hage.2, prefixCmpTie_of_eq h]

/-! ## The ranking -/

/-- The ranking that the decision flags ask for, with route age. -/
def ageRanking (c : DecideCtx) : Ranking Prefix (List ℤ) ℕ :=
  if c.flags.medAlways then alwaysBy (agedTailKey c) else strictBy c (agedTailKey c)

/-- The MED check decides, or it finds no difference. -/
theorem prefixCmpMed_cases (c : DecideCtx) (p q : Prefix) :
    (prefixCmpMed c p q).1 = 2 ∧ (prefixCmpMed c q p).1 = -2 ∧ ¬SameMed c p q ∨
      (prefixCmpMed c p q).1 = -2 ∧ (prefixCmpMed c q p).1 = 2 ∧ ¬SameMed c p q ∨
      (prefixCmpMed c p q).1 = prefixCmpTail c p q ∧
        (prefixCmpMed c q p).1 = prefixCmpTail c q p ∧ SameMed c p q := by
  by_cases hc : c.flags.medAlways = true ∨
      aspathNeighbor c.localAs p.asp.aspath = aspathNeighbor c.localAs q.asp.aspath
  · have hc' := hc.imp_right Eq.symm
    rcases lt_trichotomy p.asp.med q.asp.med with h | h | h
    · exact Or.inl ⟨by simp [prefixCmpMed, hc, h], by simp [prefixCmpMed, hc', h, h.not_gt],
        fun hs => h.ne (hs hc)⟩
    · exact Or.inr (Or.inr ⟨by simp [prefixCmpMed, h], by simp [prefixCmpMed, h], fun _ => h⟩)
    · exact Or.inr (Or.inl ⟨by simp [prefixCmpMed, hc, h, h.not_gt], by simp [prefixCmpMed, hc', h],
        fun hs => h.ne (hs hc).symm⟩)
  · have hc' : ¬(c.flags.medAlways = true ∨
        aspathNeighbor c.localAs q.asp.aspath = aspathNeighbor c.localAs p.asp.aspath) :=
      fun h => hc (h.imp_right Eq.symm)
    exact Or.inr (Or.inr ⟨by simp [prefixCmpMed, hc], by simp [prefixCmpMed, hc'],
      fun h => absurd h hc⟩)

/-- **Two eligible paths tie**: steps 2 to 13 find no difference. -/
structure Tied (c : DecideCtx) (p q : Prefix) : Prop where
  lpref : p.asp.lpref = q.asp.lpref
  ascnt : aspathCount p.asp.aspath = aspathCount q.asp.aspath
  origin : p.asp.origin = q.asp.origin
  med : SameMed c p q
  ebgp : (c.peer p.peer).ebgp = (c.peer q.peer).ebgp
  weight : p.asp.weight = q.asp.weight
  age : c.flags.routeage → p.lastchange = q.lastchange
  routerId : c.routerId p = c.routerId q
  clusterCnt : clusterCnt p = clusterCnt q
  aid : (c.peer p.peer).remoteAddr.aid = (c.peer q.peer).remoteAddr.aid
  addr : (c.peer p.peer).remoteAddr.aid = some .inet ∨ (c.peer p.peer).remoteAddr.aid =
    some .inet6 →
    (c.peer p.peer).remoteAddr.addr = (c.peer q.peer).remoteAddr.addr ∧ p.pathId = q.pathId

/-- Two paths tie exactly if level, MED standing and the tail of the steps agree. -/
theorem tied_iff : Tied c p q ↔
    prefixLevel p = prefixLevel q ∧ SameMed c p q ∧ agedTailKey c p = agedTailKey c q := by
  constructor
  · rintro ⟨hl, ha, ho, hm, he, hw, hage, hr, hc, haid, haddr⟩
    have hk : ageKey c p = ageKey c q := by
      unfold ageKey
      split_ifs with hra
      · rw [hage hra]
      · rfl
    have htie : tieKey c p = tieKey c q := by
      unfold tieKey BgpdAddr.aidVal
      by_cases hf : (c.peer p.peer).remoteAddr.aid = some .inet ∨
          (c.peer p.peer).remoteAddr.aid = some .inet6
      · simp [hr, hc, ← haid, hf, haddr hf]
      · simp [hr, hc, ← haid, hf]
    exact ⟨by simp [prefixLevel, hl, ha, ho], hm, by simp [agedTailKey, he, hw, hk, htie]⟩
  · rintro ⟨hl, hm, hk⟩
    simp only [prefixLevel, List.cons.injEq, neg_inj, Nat.cast_inj, and_true] at hl
    simp only [agedTailKey, tieKey, List.cons.injEq, neg_inj, Nat.cast_inj] at hk
    obtain ⟨he, hw, hage, hr, hc, hv, haddr⟩ := hk
    have haid := BgpdAddr.aid_of_aidVal hv
    refine ⟨hl.1, hl.2.1, hl.2.2, hm, ?_, hw, fun hra => ?_, hr, hc, haid, fun hf => ?_⟩
    · cases hp : (c.peer p.peer).ebgp <;> cases hq : (c.peer q.peer).ebgp <;> simp_all
    · simp only [ageKey, hra, if_true] at hage
      exact_mod_cast hage
    · rw [if_pos hf, if_pos (haid ▸ hf), List.cons.injEq, List.cons.injEq, Nat.cast_inj,
        Nat.cast_inj] at haddr
      exact ⟨haddr.1, haddr.2.1⟩

/-- The comparison of two eligible paths in both orders: one of them is better, or they tie. -/
theorem prefixCmp_trichotomy (hp : prefixEligible p) (hq : prefixEligible q) :
    (prefixCmp c (some p) (some q)).1 > 0 ∧ (prefixCmp c (some q) (some p)).1 < 0 ∧ ¬Tied c p q ∨
      (prefixCmp c (some p) (some q)).1 < 0 ∧ (prefixCmp c (some q) (some p)).1 > 0 ∧ ¬Tied c p q ∨
      (prefixCmp c (some p) (some q)).1 = 0 ∧ (prefixCmp c (some q) (some p)).1 = 0 ∧
        Tied c p q := by
  rw [tied_iff, prefixCmp_eligible hp hq, prefixCmp_eligible hq hp]
  rcases lt_trichotomy (prefixLevel p) (prefixLevel q) with hl | hl | hl
  · rw [if_pos hl, if_neg hl.not_gt, if_pos hl]
    exact Or.inl ⟨by decide, by decide, fun h => hl.ne h.1⟩
  · have hirr : ¬ prefixLevel q < prefixLevel q := lt_irrefl _
    simp only [hl, hirr, if_false]
    rcases prefixCmpMed_cases c p q with ⟨h₁, h₂, hm⟩ | ⟨h₁, h₂, hm⟩ | ⟨h₁, h₂, hm⟩
    · rw [h₁, h₂]
      exact Or.inl ⟨by decide, by decide, fun h => hm h.2.1⟩
    · rw [h₁, h₂]
      exact Or.inr (Or.inl ⟨by decide, by decide, fun h => hm h.2.1⟩)
    · rw [h₁, h₂]
      rcases lt_trichotomy (agedTailKey c p) (agedTailKey c q) with hk | hk | hk
      · obtain ⟨hpos, hneg⟩ := prefixCmpTail_aged_lt hk
        exact Or.inl ⟨hpos, hneg, fun h => hk.ne h.2.2⟩
      · exact Or.inr (Or.inr ⟨prefixCmpTail_of_eq hk, prefixCmpTail_of_eq hk.symm, trivial, hm, hk⟩)
      · obtain ⟨hpos, hneg⟩ := prefixCmpTail_aged_lt hk
        exact Or.inr (Or.inl ⟨hneg, hpos, fun h => hk.ne' h.2.2⟩)
  · rw [if_neg hl.not_gt, if_pos hl, if_pos hl]
    exact Or.inr (Or.inl ⟨by decide, by decide, fun h => hl.ne' h.1⟩)

/-- The result is 0, where the code calls `fatalx`, exactly when the paths tie. -/
theorem prefixCmp_eq_zero_iff (hp : prefixEligible p) (hq : prefixEligible q) :
    (prefixCmp c (some p) (some q)).1 = 0 ↔ Tied c p q := by
  rcases prefixCmp_trichotomy (c := c) hp hq with ⟨h, -, ht⟩ | ⟨h, -, ht⟩ | ⟨h, -, ht⟩
  · exact ⟨fun h₀ => absurd h₀ h.ne', fun h => absurd h ht⟩
  · exact ⟨fun h₀ => absurd h₀ h.ne, fun h => absurd h ht⟩
  · exact ⟨fun _ => ht, fun _ => h⟩

/-- The two orders of the arguments give opposite signs. -/
theorem prefixCmp_opposite (hp : prefixEligible p) (hq : prefixEligible q) (ht : ¬Tied c p q) :
    (prefixCmp c (some p) (some q)).1 * (prefixCmp c (some q) (some p)).1 < 0 := by
  rcases prefixCmp_trichotomy (c := c) hp hq with ⟨h, h', -⟩ | ⟨h, h', -⟩ | ⟨-, -, h⟩
  · exact mul_neg_of_pos_of_neg h h'
  · exact mul_neg_of_neg_of_pos h h'
  · exact absurd h ht

/-- The comparison of two eligible paths that do not tie, in terms of the ranking. -/
theorem ageVerdict (hp : prefixEligible p) (hq : prefixEligible q) (ht : ¬Tied c p q) :
    Verdict (ageRanking c) p q (prefixCmp c (some p) (some q)) := by
  have hk : TailBy c (agedTailKey c) p q :=
    ⟨fun h => (prefixCmpTail_aged_lt h).1, fun h => (prefixCmpTail_aged_lt h).2.not_gt,
      fun hl hm hk => ht (tied_iff.mpr ⟨hl, hm, hk⟩)⟩
  unfold ageRanking
  cases hm : c.flags.medAlways with
  | true => exact alwaysVerdict hm hp hq hk
  | false => exact strictVerdict hm hp hq hk

end Bgpd.Rde
