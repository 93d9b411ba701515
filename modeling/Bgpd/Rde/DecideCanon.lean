import Bgpd.Rde.DecideScan
import Bgpd.Lib.BlockedOrder
import Bgpd.Lib.Run

/-!
# The Decision Process is History-Free

With strict MED evaluation `prefix_cmp` is not transitive, so the queue of a RIB entry is
not sorted by any order. It is canonical all the same: it is the greedy order of
`Lib.BlockedOrder`, where inside a level a path with a lower MED blocks the paths of the
same neighbour AS with a higher one. With MED always the MED is part of the level and
nothing blocks.

The canonical order depends on the set of listed paths only. So the queue does not
remember in which order paths came and went.

## Main results

- `prefixCmp_verdict`: the comparison in terms of the ranking
- `canonBy_prefixInsert`, `canonBy_prefixRemove`: both operations keep the order of any ranking
  that the comparison follows
- `evalRun_history_free`: two runs that end with the same paths end with the same order
-/

namespace Bgpd.Rde

open Bgpd.Lib

variable {c : DecideCtx}

/-! ## Ranking of paths -/

/-- Steps 10 to 13 as one key. -/
def tieKey (c : DecideCtx) (p : Prefix) : List ℤ :=
  let a := (c.peer p.peer).remoteAddr
  (c.routerId p : ℤ) :: (clusterCnt p : ℤ) :: (a.aidVal : ℤ) ::
    if a.aid = some .inet ∨ a.aid = some .inet6 then [(a.addr : ℤ), (p.pathId : ℤ)] else []

theorem BgpdAddr.aid_of_aidVal {a b : BgpdAddr} (h : a.aidVal = b.aidVal) : a.aid = b.aid := by
  unfold BgpdAddr.aidVal at h
  generalize a.aid = x at h
  generalize b.aid = y at h
  revert h
  rcases x with _ | x <;> rcases y with _ | y
  · simp
  · cases y <;> decide
  · cases x <;> decide
  · cases x <;> cases y <;> decide

/-- Steps 10 to 13 compare the keys. -/
theorem prefixCmpTie_lt {p q : Prefix} (h : tieKey c p < tieKey c q) :
    prefixCmpTie c p q = 1 ∧ prefixCmpTie c q p = -1 := by
  simp only [tieKey, List.cons_lt_cons_iff, Nat.cast_lt, Nat.cast_inj] at h
  rcases h with h | ⟨h₁, h | ⟨h₂, h | ⟨h₃, h⟩⟩⟩
  · simp [prefixCmpTie, h, h.not_gt]
  · simp [prefixCmpTie, h₁, h, h.not_gt]
  · simp [prefixCmpTie, h₁, h₂, h, h.not_gt]
  · -- the same family on both sides, so the address and the path id decide
    have haid := BgpdAddr.aid_of_aidVal h₃
    simp only [haid] at h
    split_ifs at h with hf
    · simp only [List.cons_lt_cons_iff, List.lt_irrefl, and_false, or_false, Nat.cast_lt,
        Nat.cast_inj] at h
      rcases h with h | ⟨h₄, h⟩
      · simp [prefixCmpTie, h₁, h₂, h₃, haid, hf, h, h.not_gt]
      · simp [prefixCmpTie, h₁, h₂, h₃, haid, hf, h₄, h, h.not_gt]
    · exact absurd h (List.lt_irrefl _)

/-- Steps 6 to 13 as one key, without step 9. -/
def tailKey (c : DecideCtx) (p : Prefix) : List ℤ :=
  (if (c.peer p.peer).ebgp then 0 else 1) :: -(p.asp.weight : ℤ) :: tieKey c p

/-- Without route age, steps 6 to 13 compare the keys. -/
theorem prefixCmpTail_lt {p q : Prefix} (hra : c.flags.routeage = false)
    (h : tailKey c p < tailKey c q) : prefixCmpTail c p q > 0 ∧ prefixCmpTail c q p < 0 := by
  simp only [tailKey, List.cons_lt_cons_iff, neg_lt_neg_iff, neg_inj, Nat.cast_lt,
    Nat.cast_inj] at h
  rcases h with h | ⟨h₁, h | ⟨h₂, h⟩⟩
  · cases hp : (c.peer p.peer).ebgp <;> cases hq : (c.peer q.peer).ebgp <;>
      simp [hp, hq] at h
    simp [prefixCmpTail, hp, hq]
  · have he : (c.peer p.peer).ebgp = (c.peer q.peer).ebgp := by
      cases hp : (c.peer p.peer).ebgp <;> cases hq : (c.peer q.peer).ebgp <;> simp_all
    simp [prefixCmpTail, he, h, h.not_gt]
  · have he : (c.peer p.peer).ebgp = (c.peer q.peer).ebgp := by
      cases hp : (c.peer p.peer).ebgp <;> cases hq : (c.peer q.peer).ebgp <;> simp_all
    obtain ⟨t₁, t₂⟩ := prefixCmpTie_lt h
    simp [prefixCmpTail, he, h₂, hra, t₁, t₂]

theorem tailKey_ne {p q : Prefix} (h : tieKey c p ≠ tieKey c q) : tailKey c p ≠ tailKey c q := by
  intro he
  simp only [tailKey, List.cons.injEq] at he
  exact h he.2.2

/-- Strict evaluation: MEDs are compared inside one neighbour AS. -/
def strictRanking (c : DecideCtx) : Ranking Prefix (List ℤ) ℕ where
  level := prefixLevel
  group p := aspathNeighbor c.localAs p.asp.aspath
  med p := p.asp.med
  key := tailKey c

/-- MED always: one total order. -/
def alwaysRanking (c : DecideCtx) : Ranking Prefix (List ℤ) ℕ where
  level p := prefixLevel p ++ (p.asp.med : ℤ) :: tailKey c p
  group _ := 0
  med _ := 0
  key := tailKey c

/-- The ranking that the decision flags ask for. -/
def ranking (c : DecideCtx) : Ranking Prefix (List ℤ) ℕ :=
  if c.flags.medAlways then alwaysRanking c else strictRanking c

/-- What `prefix_cmp` returns for the new path `n` and a listed path `x`, in terms of a
    ranking. -/
inductive Verdict (r : Ranking Prefix (List ℤ) ℕ) (n x : Prefix) : ℤ × ℕ → Prop
  | above {rv : ℤ} (hrv : rv > 0) (h : r.level n < r.level x) : Verdict r n x (rv, 0)
  | below {rv : ℤ} (hrv : ¬ rv > 0) (h : r.level x < r.level n) : Verdict r n x (rv, 0)
  | blocks {rv : ℤ} (hrv : rv > 0) (h : r.Blocks n x) : Verdict r n x (rv, 2)
  | blocked {rv : ℤ} (hrv : ¬ rv > 0) (h : r.Blocks x n) : Verdict r n x (rv, 2)
  | better {rv : ℤ} (hrv : rv > 0) (hl : r.level n = r.level x) (hb : ¬ r.Blocks x n)
      (hb' : ¬ r.Blocks n x) (hk : r.key n < r.key x) : Verdict r n x (rv, 1)
  | worse {rv : ℤ} (hrv : ¬ rv > 0) (hl : r.level x = r.level n) (hb : ¬ r.Blocks x n)
      (hb' : ¬ r.Blocks n x) (hk : r.key x < r.key n) : Verdict r n x (rv, 1)

theorem prefixLevel_append_lt {p q : Prefix} (l m : List ℤ) (h : prefixLevel p < prefixLevel q) :
    prefixLevel p ++ l < prefixLevel q ++ m := by
  simp only [prefixLevel, List.cons_append, List.nil_append, List.cons_lt_cons_iff,
    List.lt_irrefl, and_false, or_false] at h ⊢
  tauto

/-- The MED check does not tell the paths apart. -/
def SameMed (c : DecideCtx) (p q : Prefix) : Prop :=
  c.flags.medAlways ∨ aspathNeighbor c.localAs p.asp.aspath =
    aspathNeighbor c.localAs q.asp.aspath →
    p.asp.med = q.asp.med

/-- Strict evaluation with any key for steps 6 to 13. -/
def strictBy (c : DecideCtx) (key : Prefix → List ℤ) : Ranking Prefix (List ℤ) ℕ where
  level := prefixLevel
  group p := aspathNeighbor c.localAs p.asp.aspath
  med p := p.asp.med
  key := key

/-- MED always with any key for steps 6 to 13. -/
def alwaysBy (key : Prefix → List ℤ) : Ranking Prefix (List ℤ) ℕ where
  level p := prefixLevel p ++ (p.asp.med : ℤ) :: key p
  group _ := 0
  med _ := 0
  key := key

/-- Steps 6 to 13 compare the keys of two paths, which differ if the steps are reached. -/
structure TailBy (c : DecideCtx) (key : Prefix → List ℤ) (p q : Prefix) : Prop where
  better : key p < key q → prefixCmpTail c p q > 0
  worse : key q < key p → ¬ prefixCmpTail c p q > 0
  ne : prefixLevel p = prefixLevel q → SameMed c p q → key p ≠ key q

variable {key : Prefix → List ℤ}

/-- With MED always the level decides. -/
theorem alwaysVerdict {p q : Prefix} (hm : c.flags.medAlways = true) (hp : prefixEligible p)
    (hq : prefixEligible q) (hk : TailBy c key p q) :
    Verdict (alwaysBy key) p q (prefixCmp c (some p) (some q)) := by
  rw [prefixCmp_eligible hp hq]
  rcases lt_trichotomy (prefixLevel p) (prefixLevel q) with hl | hl | hl
  · rw [if_pos hl]
    exact Verdict.above (by decide) (prefixLevel_append_lt _ _ hl)
  · have hirr : ¬ prefixLevel q < prefixLevel q := lt_irrefl _
    simp only [hl, hirr, if_false, prefixCmpMed, hm, true_or, true_and, if_true]
    -- the rest of the level is the MED, then the key
    have hlev : ∀ {x y : Prefix}, prefixLevel x = prefixLevel y →
        (x.asp.med : ℤ) :: key x < (y.asp.med : ℤ) :: key y →
        (alwaysBy key).level x < (alwaysBy key).level y := by
      intro x y hxy h
      simp only [alwaysBy, hxy]
      simpa only [prefixLevel, List.cons_append, List.nil_append, List.cons_lt_cons_self] using h
    split_ifs with h₁ h₂
    · exact Verdict.above (by decide) (hlev hl (by simp [List.cons_lt_cons_iff, h₁]))
    · exact Verdict.below (by decide) (hlev hl.symm (by simp [List.cons_lt_cons_iff, h₂]))
    · have hmed : p.asp.med = q.asp.med := le_antisymm (not_lt.mp h₂) (not_lt.mp h₁)
      rcases lt_or_gt_of_ne (hk.ne hl fun _ => hmed) with h | h
      · exact Verdict.above (hk.better h) (hlev hl (by simp [hmed, h]))
      · exact Verdict.below (hk.worse h) (hlev hl.symm (by simp [hmed, h]))
  · rw [if_neg hl.not_gt, if_pos hl]
    exact Verdict.below (by decide) (prefixLevel_append_lt _ _ hl)

/-- With strict MED the level, the MED inside one neighbour AS and the key decide. -/
theorem strictVerdict {p q : Prefix} (hm : c.flags.medAlways = false) (hp : prefixEligible p)
    (hq : prefixEligible q) (hk : TailBy c key p q) :
    Verdict (strictBy c key) p q (prefixCmp c (some p) (some q)) := by
  rw [prefixCmp_eligible hp hq]
  rcases lt_trichotomy (prefixLevel p) (prefixLevel q) with hl | hl | hl
  · rw [if_pos hl]
    exact Verdict.above (by decide) hl
  · have hirr : ¬ prefixLevel q < prefixLevel q := lt_irrefl _
    simp only [hl, hirr, if_false, prefixCmpMed, hm, Bool.false_eq_true, false_or]
    split_ifs with h₁ h₂
    · exact Verdict.blocks (by decide) ⟨hl, h₁.1, h₁.2⟩
    · exact Verdict.blocked (by decide) ⟨hl.symm, h₂.1.symm, h₂.2⟩
    · have hb : ¬ (strictBy c key).Blocks p q := fun h => h₁ ⟨h.2.1, h.2.2⟩
      have hb' : ¬ (strictBy c key).Blocks q p := fun h => h₂ ⟨h.2.1.symm, h.2.2⟩
      have hmed : SameMed c p q := by
        rintro (h | hsame)
        · exact absurd h (by simp [hm])
        · exact le_antisymm (not_lt.mp fun h => h₂ ⟨hsame, h⟩) (not_lt.mp fun h => h₁ ⟨hsame, h⟩)
      rcases lt_or_gt_of_ne (hk.ne hl hmed) with h | h
      · exact Verdict.better (hk.better h) hl hb' hb h
      · exact Verdict.worse (hk.worse h) hl.symm hb' hb h
  · rw [if_neg hl.not_gt, if_pos hl]
    exact Verdict.below (by decide) hl

/-- The comparison of two eligible paths that steps 10 to 13 can tell apart. -/
theorem prefixCmp_verdict {p q : Prefix} (hra : c.flags.routeage = false)
    (hp : prefixEligible p) (hq : prefixEligible q) (hne : tieKey c p ≠ tieKey c q) :
    Verdict (ranking c) p q (prefixCmp c (some p) (some q)) := by
  have hk : TailBy c (tailKey c) p q :=
    ⟨fun h => (prefixCmpTail_lt hra h).1, fun h => (prefixCmpTail_lt hra h).2.not_gt,
      fun _ _ => tailKey_ne hne⟩
  unfold ranking
  cases hm : c.flags.medAlways with
  | true => exact alwaysVerdict hm hp hq hk
  | false => exact strictVerdict hm hp hq hk

/-! ## A gap search finds the insertion point -/

/-- What the search knows about the part of the queue it has seen. -/
structure ScanInv (r : Ranking Prefix (List ℤ) ℕ) (n : Prefix) (g : Gap) : Prop where
  before : Ranking.AllBefore r n g.before
  level_le : ∀ x ∈ g.before ++ g.behind, r.level x ≤ r.level n
  unblocked : ∀ x ∈ g.before ++ g.behind, ¬ r.Blocks n x
  free : ∀ y ∈ g.behind, ¬ r.Blocks y n
  head : ∀ y B, g.behind = y :: B →
    r.level n < r.level y ∨ (r.level n = r.level y ∧ r.key n < r.key y)
  /-- The gap is locked exactly when there is something behind it. -/
  locked : g.selected = true ↔ g.behind ≠ []

theorem ScanInv.unlocked {r : Ranking Prefix (List ℤ) ℕ} {n : Prefix} {g : Gap}
    (h : ScanInv r n g) (hs : g.selected = false) : g.behind = [] := by
  by_contra hne
  rw [h.locked.mpr hne] at hs
  cases hs

variable {r : Ranking Prefix (List ℤ) ℕ} {n : Prefix}

/-- The element at hand stays behind the gap. -/
theorem ScanInv.keep {g : Gap} {x : Prefix} (h : ScanInv r n g) (hle : r.level x ≤ r.level n)
    (hu : ¬ r.Blocks n x) (hf : ¬ r.Blocks x n)
    (hhead : g.behind = [] → r.level n = r.level x ∧ r.key n < r.key x) :
    ScanInv r n { g with behind := g.behind ++ [x], selected := true } := by
  refine ⟨h.before, ?_, ?_, ?_, ?_, by simp⟩
  · intro y hy
    simp only [List.mem_append, List.mem_singleton] at hy
    rcases hy with hy | hy | rfl
    · exact h.level_le y (List.mem_append_left _ hy)
    · exact h.level_le y (List.mem_append_right _ hy)
    · exact hle
  · intro y hy
    simp only [List.mem_append, List.mem_singleton] at hy
    rcases hy with hy | hy | rfl
    · exact h.unblocked y (List.mem_append_left _ hy)
    · exact h.unblocked y (List.mem_append_right _ hy)
    · exact hu
  · intro y hy
    rcases List.mem_append.mp hy with hy | hy
    · exact h.free y hy
    · rw [List.mem_singleton.mp hy]
      exact hf
  · intro y B hB
    cases hb : g.behind with
    | nil =>
      simp only [hb, List.nil_append, List.cons.injEq] at hB
      rw [← hB.1]
      exact Or.inr (hhead hb)
    | cons z B' =>
      simp only [hb, List.cons_append, List.cons.injEq] at hB
      rw [← hB.1]
      exact h.head z B' hb

/-- The gap moves behind the element at hand. -/
theorem ScanInv.advance {g : Gap} {x : Prefix} (h : ScanInv r n g)
    (hle : r.level x ≤ r.level n) (hu : ¬ r.Blocks n x)
    (hb : Ranking.AllBefore r n (g.before ++ g.behind ++ [x])) :
    ScanInv r n
      { g with before := g.before ++ g.behind ++ [x], behind := [], selected := false } := by
  refine ⟨hb, ?_, ?_, by simp, by simp, by simp⟩
  · intro y hy
    rw [List.append_nil, List.mem_append, List.mem_singleton] at hy
    rcases hy with hy | rfl
    · exact h.level_le y hy
    · exact hle
  · intro y hy
    rw [List.append_nil, List.mem_append, List.mem_singleton] at hy
    rcases hy with hy | rfl
    · exact h.unblocked y hy
    · exact hu

/-- **The gap is the insertion point.** The search leaves what is not blocked by the new
    path, and splits it where the new path belongs. -/
theorem gapScan_insertPoint {T : List Prefix} {g : Gap}
    (hv : ∀ x ∈ T, Verdict r n x (prefixCmp c (some n) (some x))) (hT : r.Canon T)
    (hi : ScanInv r n g) :
    Ranking.InsertPoint r n (gapScan c n T g).before (gapScan c n T g).behind ∧
      (gapScan c n T g).before ++ (gapScan c n T g).behind =
        g.before ++ g.behind ++ T.filter (fun x => !decide (r.Blocks n x)) := by
  induction T generalizing g with
  | nil => exact ⟨⟨hi.unblocked, hi.before, hi.free, hi.head⟩, by simp [gapScan]⟩
  | cons x T ih =>
    have hvT := fun y hy => hv y (List.mem_cons_of_mem x hy)
    have hvx := hv x (List.mem_cons_self ..)
    rw [gapScan]
    generalize prefixCmp c (some n) (some x) = res at hvx
    cases hvx with
    | above hrv hlt =>
      -- everything from here on stands on a later level
      have hlev : ∀ y ∈ x :: T, r.level n < r.level y := by
        intro y hy
        rcases List.mem_cons.mp hy with rfl | hy
        · exact hlt
        · exact hlt.trans_le (hT.1 y hy).level_le
      have hnb : ∀ y ∈ x :: T, ¬ r.Blocks n y ∧ ¬ r.Blocks y n := fun y hy =>
        ⟨fun hb => (hlev y hy).ne hb.1, fun hb => (hlev y hy).ne' hb.1⟩
      have hfil : (x :: T).filter (fun y => !decide (r.Blocks n y)) = x :: T := by
        rw [List.filter_eq_self]
        exact fun y hy => by simpa using (hnb y hy).1
      simp only [hrv, if_true, OfNat.zero_ne_ofNat, if_false]
      refine ⟨⟨?_, hi.before, ?_, ?_⟩, by rw [hfil, List.append_assoc]⟩
      · intro y hy
        rw [← List.append_assoc] at hy
        rcases List.mem_append.mp hy with hy | hy
        · exact hi.unblocked y hy
        · exact (hnb y hy).1
      · intro y hy
        rcases List.mem_append.mp hy with hy | hy
        · exact hi.free y hy
        · exact (hnb y hy).2
      · intro y B hB
        cases hb : g.behind with
        | nil =>
          simp only [hb, List.nil_append, List.cons.injEq] at hB
          exact Or.inl (hB.1 ▸ hlt)
        | cons z B' =>
          simp only [hb, List.cons_append, List.cons.injEq] at hB
          exact hB.1 ▸ hi.head z B' hb
    -- `x` stays before `n`, or behind the place if one is selected already
    | below hrv hlt =>
      have hu : ¬ r.Blocks n x := fun hb => hlt.ne' hb.1
      have hf : ¬ r.Blocks x n := fun hb => hlt.ne hb.1
      cases hsel : g.selected with
      | false =>
        have hb : Ranking.AllBefore r n (g.before ++ g.behind ++ [x]) := by
          rw [hi.unlocked hsel, List.append_nil]
          exact hi.before.append ⟨Or.inl hlt, trivial⟩
        have := ih hvT hT.2 (hi.advance hlt.le hu hb)
        simpa [hrv, hu] using this
      | true =>
        have hne : g.behind ≠ [] := hi.locked.mp hsel
        have := ih hvT hT.2 (hi.keep hlt.le hu hf (fun h => absurd h hne))
        simpa [hrv, hsel, hu] using this
    -- `n` blocks `x`: it is put aside and inserted again later
    | blocks hrv hb =>
      have := ih (g := { g with redo := g.redo ++ [x] }) hvT hT.2
        ⟨hi.before, hi.level_le, hi.unblocked, hi.free, hi.head, hi.locked⟩
      simpa [hrv, hb] using this
    -- `x` blocks `n`: the place moves behind it
    | blocked hrv hb =>
      have hu : ¬ r.Blocks n x := fun h => lt_asymm h.2.2 hb.2.2
      have := ih hvT hT.2 (hi.advance hb.1.le hu
        (Ranking.AllBefore.append_blocker hb hi.level_le))
      simpa [hrv, hu] using this
    -- same level and better: the place stays before `x`
    | better hrv hl hb hb' hk =>
      have := ih hvT hT.2 (hi.keep hl.ge hb' hb (fun _ => ⟨hl, hk⟩))
      simpa [hrv, hb'] using this
    -- same level and worse: the place moves behind `x`, unless one is selected
    | worse hrv hl hb hb' hk =>
      cases hsel : g.selected with
      | false =>
        have hA : Ranking.AllBefore r n (g.before ++ g.behind ++ [x]) := by
          rw [hi.unlocked hsel, List.append_nil]
          exact hi.before.append ⟨Or.inr ⟨hl, Or.inl hk⟩, trivial⟩
        have := ih hvT hT.2 (hi.advance hl.le hb' hA)
        simpa [hrv, hsel, hb'] using this
      | true =>
        have hne : g.behind ≠ [] := hi.locked.mp hsel
        have := ih hvT hT.2 (hi.keep hl.le hb' hb (fun h => absurd h hne))
        simpa [hrv, hsel, hb'] using this

/-! ## The canonical queue -/

/-- Steps 10 to 13 tell any two of the eligible paths apart. -/
def TieDistinct (c : DecideCtx) (l : List Prefix) : Prop :=
  l.Pairwise (fun x y => prefixEligible x → prefixEligible y → tieKey c x ≠ tieKey c y)

theorem TieDistinct.of_subperm {l S : List Prefix} (h : TieDistinct c S) (hs : l.Subperm S) :
    TieDistinct c l := by
  obtain ⟨l', hp, hsub⟩ := hs
  refine (hp.pairwise_iff fun hxy hy hx => ?_).mp (h.sublist hsub)
  exact (hxy hx hy).symm

/-- Any two of the eligible paths compare as the ranking says. -/
def RankedBy (c : DecideCtx) (r : Ranking Prefix (List ℤ) ℕ) (l : List Prefix) : Prop :=
  l.Pairwise fun x y => prefixEligible x → prefixEligible y →
    Verdict r x y (prefixCmp c (some x) (some y)) ∧ Verdict r y x (prefixCmp c (some y) (some x))

theorem RankedBy.of_subperm {l S : List Prefix} (h : RankedBy c r S) (hs : l.Subperm S) :
    RankedBy c r l := by
  obtain ⟨l', hp, hsub⟩ := hs
  refine (hp.pairwise_iff fun hxy hy hx => ?_).mp (h.sublist hsub)
  exact (hxy hx hy).symm

theorem RankedBy.verdict {l : List Prefix} (h : RankedBy c r (n :: l)) (hn : prefixEligible n) :
    ∀ x ∈ l, prefixEligible x → Verdict r n x (prefixCmp c (some n) (some x)) ∧
      Verdict r x n (prefixCmp c (some x) (some n)) :=
  fun x hx hxe => (List.pairwise_cons.mp h).1 x hx hn hxe

/-- A path that steps 1 to 5 put first blocks the other one. -/
theorem Verdict.blocks_of_overtakes {e : Prefix} (h : Verdict r e n (prefixCmp c (some e) (some n)))
    (ho : Overtakes c e n) : r.Blocks e n := by
  rw [ho.cmp.1] at h
  cases h with
  | blocks _ hb => exact hb
  | blocked hrv _ => exact absurd (by decide) hrv

theorem TieDistinct.rankedBy {l : List Prefix} (hra : c.flags.routeage = false)
    (h : TieDistinct c l) : RankedBy c (ranking c) l :=
  List.Pairwise.imp (fun hxy hx hy =>
    ⟨prefixCmp_verdict hra hx hy (hxy hx hy), prefixCmp_verdict hra hy hx (hxy hx hy).symm⟩) h

/-- The eligible paths stand first, in the greedy order of the ranking. -/
structure CanonBy (r : Ranking Prefix (List ℤ) ℕ) (l : List Prefix) : Prop where
  first : EligibleFirst l
  canon : r.Canon (l.filter prefixEligible)

/-- The eligible paths stand first, in the greedy order. -/
structure CanonQueue (c : DecideCtx) (l : List Prefix) : Prop where
  first : EligibleFirst l
  canon : (ranking c).Canon (l.filter prefixEligible)

theorem canonQueue_iff {l : List Prefix} : CanonQueue c l ↔ CanonBy (ranking c) l :=
  ⟨fun h => ⟨h.first, h.canon⟩, fun h => ⟨h.first, h.canon⟩⟩

/-- An eligible path does not look at the ineligible ones. -/
theorem gapScan_append_ineligible {E I : List Prefix} (hI : ∀ x ∈ I, prefixEligible x = false)
    (g : Gap) : gapScan c n (E ++ I) g =
      { gapScan c n E g with behind := (gapScan c n E g).behind ++ I } := by
  induction E generalizing g with
  | nil =>
    cases I with
    | nil => simp [gapScan]
    | cons y I =>
      simp [gapScan, prefixCmp_ineligible_right n (hI y (List.mem_cons_self ..))]
  | cons x E ih =>
    rw [List.cons_append, gapScan, gapScan]
    dsimp only
    split_ifs <;> first | exact ih _ | simp

/-- The search state at the start: nothing seen, or the blocking entry point just passed. -/
theorem gapScan_entry {P T : List Prefix} (hent : EntryPoint c n P T)
    (hv : ∀ x ∈ T, Verdict r n x (prefixCmp c (some n) (some x))) (hPT : r.Canon (P ++ T))
    (hblock : ∀ e ∈ T, Overtakes c e n → r.Blocks e n) :
    Ranking.InsertPoint r n (gapScan c n T { before := P }).before
        (gapScan c n T { before := P }).behind ∧
      (gapScan c n T { before := P }).before ++ (gapScan c n T { before := P }).behind =
        (P ++ T).filter (fun x => !decide (r.Blocks n x)) := by
  -- the scan starts at the head of the list, or at an entry point that blocks `n`
  rcases hent with rfl | ⟨e, R, rfl, hov⟩
  · have hi : ScanInv r n { before := [] } :=
      ⟨trivial, by simp, by simp, by simp, by simp, by simp⟩
    simpa using gapScan_insertPoint hv hPT hi
  · have he : r.Blocks e n := hblock e (List.mem_cons_self ..) hov
    have hne : ¬ r.Blocks n e := fun h => lt_asymm h.2.2 he.2.2
    obtain ⟨hcanon, hcross⟩ := hPT.append_iff
    have hlevel : ∀ x ∈ P, r.level x ≤ r.level n := fun x hx =>
      (hcross x hx e (List.mem_cons_self ..)).1.trans he.1.le
    -- what `n` blocks is blocked by the entry point too, so it does not stand before it
    have hunb : ∀ x ∈ P, ¬ r.Blocks n x := fun x hx h =>
      (hcross x hx e (List.mem_cons_self ..)).2 (he.trans h)
    have hi : ScanInv r n { before := P ++ [e] } := by
      refine ⟨Ranking.AllBefore.append_blocker he hlevel, ?_, ?_, by simp, by simp, by simp⟩
      · intro x hx
        simp only [List.append_nil, List.mem_append, List.mem_singleton] at hx
        rcases hx with hx | rfl
        · exact hlevel x hx
        · exact he.1.le
      · intro x hx
        simp only [List.append_nil, List.mem_append, List.mem_singleton] at hx
        rcases hx with hx | rfl
        · exact hunb x hx
        · exact hne
    have hfirst : gapScan c n (e :: R) { before := P } = gapScan c n R { before := P ++ [e] } := by
      rw [gapScan, hov.cmp.2]
      simp
    have hfilP : P.filter (fun x => !decide (r.Blocks n x)) = P := by
      rw [List.filter_eq_self]
      exact fun x hx => by simpa using hunb x hx
    rw [hfirst]
    have := gapScan_insertPoint (fun x hx => hv x (List.mem_cons_of_mem _ hx)) hcanon.2 hi
    simpa [List.filter_append, hfilP, hne] using this

theorem filter_eligible_append {X I : List Prefix} (hX : ∀ x ∈ X, prefixEligible x)
    (hI : ∀ x ∈ I, prefixEligible x = false) : (X ++ I).filter prefixEligible = X := by
  have hI' : I.filter prefixEligible = [] := by
    rw [List.filter_eq_nil_iff]
    exact fun x hx => by simp [hI x hx]
  rw [List.filter_append, hI', List.filter_eq_self.mpr hX, List.append_nil]

/-- One gap search keeps the queue canonical. -/
theorem canonBy_gapScan {P T : List Prefix} (hr : RankedBy c r (n :: (P ++ T)))
    (hent : EntryPoint c n P T) (h : CanonBy r (P ++ T)) :
    CanonBy r ((gapScan c n T { before := P }).before ++
      n :: (gapScan c n T { before := P }).behind) := by
  refine ⟨gapScan_eligibleFirst hent h.first, ?_⟩
  have hcanon := h.canon
  obtain ⟨_, hTfirst, hcross⟩ := List.pairwise_append.mp h.first
  -- a path that is not eligible goes behind all that are
  cases hn : prefixEligible n with
  | false =>
    rcases hent with rfl | ⟨e, R, rfl, hov⟩
    · have hT : T = T.filter prefixEligible ++ T.filter (fun x => !prefixEligible x) :=
        EligibleFirst.split hTfirst
      rw [hT, gapScan_ineligible hn (fun x hx => (List.mem_filter.mp hx).2)
        (fun x hx => by simpa using (List.mem_filter.mp hx).2)]
      simpa [List.filter_append, List.filter_filter, hn] using hcanon
    · exact absurd hov.right (by simp [hn])
  -- its place is among the eligible paths, the others keep theirs
  | true =>
    -- search among the eligible paths only
    obtain ⟨E, I, rfl, hE, hI⟩ : ∃ E I, T = E ++ I ∧ (∀ x ∈ E, prefixEligible x) ∧
        ∀ x ∈ I, prefixEligible x = false :=
      ⟨_, _, EligibleFirst.split hTfirst, fun x hx => (List.mem_filter.mp hx).2,
        fun x hx => by simpa using (List.mem_filter.mp hx).2⟩
    have hP : ∀ x ∈ P, prefixEligible x := by
      rcases hent with rfl | ⟨e, R, hT, hov⟩
      · simp
      · exact fun x hx => hcross x hx e (by rw [hT]; exact List.mem_cons_self ..) hov.left
    -- the entry point is one of the eligible paths
    have hent' : EntryPoint c n P E := by
      rcases hent with hP' | ⟨e, R, hT, hov⟩
      · exact Or.inl hP'
      · cases E with
        | nil =>
          rw [List.nil_append] at hT
          have := hI e (by rw [hT]; exact List.mem_cons_self ..)
          exact absurd hov.left (by simp [this])
        | cons x E =>
          rw [List.cons_append, List.cons.injEq] at hT
          exact Or.inr ⟨x, E, rfl, hT.1 ▸ hov⟩
    have hPE : ∀ x ∈ P ++ E, prefixEligible x := fun x hx =>
      (List.mem_append.mp hx).elim (hP x) (hE x)
    rw [← List.append_assoc, filter_eligible_append hPE hI] at hcanon
    have hverdict := fun x (hx : x ∈ E) => hr.verdict hn x (by simp [hx]) (hE x hx)
    obtain ⟨hip, hkept⟩ := gapScan_entry hent' (fun x hx => (hverdict x hx).1) hcanon
      (fun e he => (hverdict e he).2.blocks_of_overtakes)
    rw [gapScan_append_ineligible hI]
    generalize gapScan c n E { before := P } = g at hip hkept
    have hres : (g.before ++ n :: (g.behind ++ I)).filter prefixEligible =
        g.before ++ n :: g.behind := by
      rw [← List.cons_append, ← List.append_assoc]
      refine filter_eligible_append (fun x hx => ?_) hI
      rw [List.mem_append, List.mem_cons, or_left_comm, ← List.mem_append, hkept] at hx
      rcases hx with rfl | hx
      · exact hn
      · exact hPE x (List.mem_filter.mp hx).1
    rw [hres]
    refine Ranking.Canon.insert ?_ hip
    rw [hkept]
    refine hcanon.filter _ fun z _ y _ hzy hy => ?_
    simp only [Bool.not_eq_eq_eq_not, Bool.not_true, decide_eq_false_iff_not] at hy ⊢
    exact fun hnz => hy (hnz.trans hzy)

/-! ## The two operations -/

theorem tieDistinct_coreList {h : List Prefix} : TieDistinct c (coreList h) ↔ TieDistinct c h := by
  simp only [TieDistinct, coreList, List.pairwise_map]
  rfl

/-- `prefix_insert` keeps the queue canonical. -/
theorem canonBy_prefixInsert {new : Prefix} {h : List Prefix}
    (hnd : ((new :: h).map (·.ptr)).Nodup) (hr : RankedBy c r (coreList (new :: h)))
    (hq : CanonBy r (coreList h)) : CanonBy r (coreList (prefixInsert c new none h)) :=
  (prefixInsert_rule (fun _ _ _ hs hent hQ => canonBy_gapScan (hr.of_subperm hs) hent hQ) hnd
    (List.Subperm.refl _) hq).2

/-- In a canonical queue `prefix_remove` leaves exactly what the old path does not block. -/
theorem takeOut_canon {o : Prefix} {E : List Prefix} (ho : prefixEligible o)
    (hE : ∀ x ∈ E, prefixEligible x) (hr : RankedBy c r (o :: E))
    (hord : (o :: E).Pairwise fun x y => r.level x ≤ r.level y ∧ ¬ r.Blocks y x) :
    (takeOut c o E).1 = E.filter (fun x => !decide (r.Blocks o x)) := by
  induction E with
  | nil => rfl
  | cons x E ih =>
    have hv := (hr.verdict ho x (List.mem_cons_self ..) (hE x (List.mem_cons_self ..))).1
    obtain ⟨hox, hxE⟩ := List.pairwise_cons.mp hord
    have hx := hox x (List.mem_cons_self ..)
    have ih := ih (fun y hy => hE y (List.mem_cons_of_mem _ hy))
      (List.Pairwise.sublist ((List.sublist_cons_self ..).cons_cons _) hr)
      (hord.sublist ((List.sublist_cons_self ..).cons_cons _))
    rw [takeOut]
    generalize prefixCmp c (some o) (some x) = res at hv
    -- the comparison says whether the path was blocked by the one that goes
    cases hv with
    | above hrv hlt =>
      -- all later paths stand on later levels
      have hall : (x :: E).filter (fun y => !decide (r.Blocks o y)) = x :: E := by
        rw [List.filter_eq_self]
        intro y hy
        have hle : r.level x ≤ r.level y := by
          rcases List.mem_cons.mp hy with rfl | hy
          · exact le_refl _
          · exact ((List.pairwise_cons.mp hxE).1 y hy).1
        have : ¬ r.Blocks o y := fun hb => (hlt.trans_le hle).ne hb.1
        simpa using this
      rw [hall]
      simp
    | below hrv hlt => exact absurd hx.1 hlt.not_ge
    | blocks hrv hb => simpa [hb] using ih
    | blocked hrv hb => exact absurd hb hx.2
    | better hrv hl hb hb' hk => simpa [hb'] using ih
    | worse hrv hl hb hb' hk => simpa [hb'] using ih

theorem takeOut_append_ineligible {o : Prefix} {E I : List Prefix}
    (hI : ∀ x ∈ I, prefixEligible x = false) :
    (takeOut c o (E ++ I)).1 = (takeOut c o E).1 ++ I := by
  induction E with
  | nil =>
    cases I with
    | nil => rfl
    | cons y I => simp [takeOut, prefixCmp_ineligible_right o (hI y (List.mem_cons_self ..))]
  | cons x E ih =>
    rw [List.cons_append, takeOut, takeOut]
    split_ifs <;> simp [ih]

/-- An ineligible path is removed without any reordering. -/
theorem takeOut_ineligible {o : Prefix} (ho : prefixEligible o = false) (l : List Prefix) :
    takeOut c o l = (l, []) := by
  cases l with
  | nil => rfl
  | cons x l =>
    have h0 : (prefixCmp c (some o) (some x)).2 = 0 := by
      cases hx : prefixEligible x with
      | true => rw [prefixCmp_ineligible_left ho hx]
      | false => rw [prefixCmp_ineligible_right o hx]
    simp [takeOut, h0]

/-- What remains after taking out is canonical. -/
theorem canonBy_takeOut {o : Prefix} {X Y : List Prefix} (hr : RankedBy c r (X ++ o :: Y))
    (hq : CanonBy r (X ++ o :: Y)) : CanonBy r (X ++ (takeOut c o Y).1) := by
  refine ⟨hq.first.sublist
    (((takeOut_sublist o Y).trans (List.sublist_cons_self ..)).append_left _), ?_⟩
  have hcanon := hq.canon
  -- a path that was not eligible had blocked nothing
  cases ho : prefixEligible o with
  | false =>
    rw [takeOut_ineligible ho]
    simpa [List.filter_append, ho] using hcanon
  | true =>
    obtain ⟨_, hoY, hcross⟩ := List.pairwise_append.mp hq.first
    obtain ⟨E, I, rfl, hE, hI⟩ : ∃ E I, Y = E ++ I ∧ (∀ x ∈ E, prefixEligible x) ∧
        ∀ x ∈ I, prefixEligible x = false :=
      ⟨_, _, EligibleFirst.split hoY.of_cons, fun x hx => (List.mem_filter.mp hx).2,
        fun x hx => by simpa using (List.mem_filter.mp hx).2⟩
    have hX : ∀ x ∈ X, prefixEligible x := fun x hx => hcross x hx o (List.mem_cons_self ..) ho
    have hfil := filter_eligible_append (X := X ++ o :: E) (I := I) (by
      intro x hx
      simp only [List.mem_append, List.mem_cons] at hx
      rcases hx with hx | rfl | hx
      · exact hX x hx
      · exact ho
      · exact hE x hx) hI
    rw [List.append_assoc, List.cons_append] at hfil
    rw [hfil] at hcanon
    have hr' : RankedBy c r (o :: E) := by
      refine (List.pairwise_append.mp hr).2.1.sublist ?_
      exact (List.sublist_append_left E I).cons_cons o
    -- nothing before `old` is blocked by it
    have hunb : ∀ x ∈ X, ¬ r.Blocks o x := fun x hx =>
      (hcanon.append_iff.2 x hx o (List.mem_cons_self ..)).2
    have hXfil : X.filter (fun x => !decide (r.Blocks o x)) = X := by
      rw [List.filter_eq_self]
      exact fun x hx => by simpa using hunb x hx
    rw [takeOut_append_ineligible hI, takeOut_canon ho hE hr' hcanon.append_iff.1.pairwise,
      ← List.append_assoc, filter_eligible_append _ hI]
    · have := hcanon.remove_blocked
      rwa [List.filter_append, hXfil] at this
    · intro x hx
      rcases List.mem_append.mp hx with hx | hx
      · exact hX x hx
      · exact hE x (List.mem_filter.mp hx).1

/-- `prefix_remove` keeps the queue canonical. -/
theorem canonBy_prefixRemove {old o : Prefix} {X Y : List Prefix} (ho : o.core = old.core)
    (hnd : ((X ++ o :: Y).map (·.ptr)).Nodup) (hr : RankedBy c r (coreList (X ++ o :: Y)))
    (hq : CanonBy r (coreList (X ++ o :: Y))) :
    CanonBy r (coreList (prefixRemove c old (X ++ o :: Y))) := by
  have hptr : o.ptr = old.ptr := by rw [← Prefix.core_ptr, ho, Prefix.core_ptr]
  have hr' : RankedBy c r (coreList (X ++ Y)) := by
    refine List.Pairwise.sublist ?_ hr
    simp only [coreList_append, coreList_cons]
    exact (List.sublist_cons_self ..).append_left _
  rw [coreList_append, coreList_cons, ho] at hr hq
  exact (prefixRemove_rule (fun _ _ _ hs hent hQ => canonBy_gapScan (hr'.of_subperm hs) hent hQ)
    hptr hnd (List.Subperm.refl _) (canonBy_takeOut hr hq)).2

/-- `prefix_insert` keeps the canonical order that the decision flags ask for. -/
theorem canonQueue_prefixInsert (hra : c.flags.routeage = false) {new : Prefix} {h : List Prefix}
    (hnd : ((new :: h).map (·.ptr)).Nodup) (hd : TieDistinct c (new :: h))
    (hq : CanonQueue c (coreList h)) : CanonQueue c (coreList (prefixInsert c new none h)) := by
  rw [← tieDistinct_coreList] at hd
  rw [canonQueue_iff] at hq ⊢
  exact canonBy_prefixInsert hnd (hd.rankedBy hra) hq

/-- `prefix_remove` keeps it too. -/
theorem canonQueue_prefixRemove (hra : c.flags.routeage = false) {old o : Prefix}
    {X Y : List Prefix} (ho : o.core = old.core)
    (hnd : ((X ++ o :: Y).map (·.ptr)).Nodup) (hd : TieDistinct c (X ++ o :: Y))
    (hq : CanonQueue c (coreList (X ++ o :: Y))) :
    CanonQueue c (coreList (prefixRemove c old (X ++ o :: Y))) := by
  rw [← tieDistinct_coreList] at hd
  rw [canonQueue_iff] at hq ⊢
  exact canonBy_prefixRemove ho hnd (hd.rankedBy hra) hq

/-! ## Runs of the decision process -/

/-- One call of `prefix_evaluate` with only a new or only an old path. -/
inductive EvalOp where
  | insert (p : Prefix)
  | remove (p : Prefix)

/-- The queue after the call. -/
def evalStep (c : DecideCtx) (flags : RibFlags) (evaluateAll : Bool) (h : List Prefix) :
    EvalOp → Option (List Prefix)
  | .insert p => (prefixEvaluate c flags evaluateAll h (some p) none).map (·.h)
  | .remove p => (prefixEvaluate c flags evaluateAll h none (some p)).map (·.h)

/-- What the callers of `prefix_evaluate` see to: a new path is not listed yet and steps 10
    to 13 tell it apart from the listed ones; an old path is listed as it is. -/
def EvalOk (c : DecideCtx) (h : List Prefix) : EvalOp → Prop
  | .insert p => p.ptr ∉ h.map (·.ptr) ∧
      ∀ x ∈ h, prefixEligible p → prefixEligible x → tieKey c p ≠ tieKey c x
  | .remove p => p.core ∈ coreList h

instance (h : List Prefix) (op : EvalOp) : Decidable (EvalOk c h op) := by
  cases op <;> unfold EvalOk <;> infer_instance

@[simp] theorem evaluationReport_h (flags : RibFlags) (all : Bool) (h : List Prefix)
    (newbest oldbest : Option Prefix) (changed quiet : Bool) (peer : Option PeerId)
    (new : Option Prefix) (oldPathidTx : ℕ) :
    (evaluationReport flags all h newbest oldbest changed quiet peer new oldPathidTx).h = h := by
  unfold evaluationReport
  split_ifs <;> rfl

theorem evalStep_insert {flags : RibFlags} (hev : flags.noevaluate = false) (all : Bool)
    (h : List Prefix) (p : Prefix) :
    evalStep c flags all h (.insert p) = some (prefixInsert c p none h) := by
  simp [evalStep, prefixEvaluate, hev]

theorem evalStep_remove {flags : RibFlags} (hev : flags.noevaluate = false) (all : Bool)
    (h : List Prefix) (p : Prefix) :
    evalStep c flags all h (.remove p) = some (prefixRemove c p h) := by
  simp [evalStep, prefixEvaluate, hev]

/-- The invariant of the queue along a run. -/
structure EvalInv (c : DecideCtx) (h : List Prefix) : Prop where
  nodup : (h.map (·.ptr)).Nodup
  distinct : TieDistinct c h
  queue : CanonQueue c (coreList h)

theorem TieDistinct.of_perm {h k : List Prefix} (hd : TieDistinct c k)
    (hp : (coreList h).Perm (coreList k)) : TieDistinct c h := by
  rw [← tieDistinct_coreList] at hd ⊢
  exact hd.of_subperm hp.subperm

/-- Every call keeps the invariant. -/
theorem evalInv_step (hra : c.flags.routeage = false) {flags : RibFlags}
    (hev : flags.noevaluate = false) {all : Bool} {h h' : List Prefix} {op : EvalOp}
    (hi : EvalInv c h) (hok : EvalOk c h op) (hs : evalStep c flags all h op = some h') :
    EvalInv c h' := by
  cases op with
  | insert p =>
    rw [evalStep_insert hev, Option.some.injEq] at hs
    subst hs
    have hnd : ((p :: h).map (·.ptr)).Nodup := List.nodup_cons.mpr ⟨hok.1, hi.nodup⟩
    have hd : TieDistinct c (p :: h) := List.pairwise_cons.mpr ⟨hok.2, hi.distinct⟩
    have hp := prefixInsert_perm (c := c) hnd
    rw [← coreList_cons] at hp
    exact ⟨nodup_of_coreList_perm hp (by simpa using hnd), hd.of_perm hp,
      canonQueue_prefixInsert hra hnd hd hi.queue⟩
  | remove p =>
    rw [evalStep_remove hev, Option.some.injEq] at hs
    subst hs
    obtain ⟨X, Y, o, rfl, ho⟩ := coreList_split hok
    have hptr : o.ptr = p.ptr := by rw [← Prefix.core_ptr, ho, Prefix.core_ptr]
    have hp := prefixRemove_perm (c := c) hptr hi.nodup
    have hsub : (X ++ Y).Sublist (X ++ o :: Y) := (List.sublist_cons_self ..).append_left _
    exact ⟨nodup_of_coreList_perm hp (by simpa using hi.nodup.sublist (hsub.map _)),
      TieDistinct.of_perm (hi.distinct.sublist hsub) hp,
      canonQueue_prefixRemove hra ho hi.nodup hi.distinct hi.queue⟩

theorem evalInv_nil : EvalInv c [] :=
  ⟨List.nodup_nil, List.Pairwise.nil, List.Pairwise.nil, trivial⟩

theorem evalInv_run (hra : c.flags.routeage = false) {flags : RibFlags}
    (hev : flags.noevaluate = false) {all : Bool} {h : List Prefix} {ops : List EvalOp}
    (hr : Run (evalStep c flags all) (EvalOk c) [] ops h) : EvalInv c h :=
  hr.invariant (fun _ _ _ hi hok hs => evalInv_step hra hev hi hok hs) evalInv_nil

theorem filter_coreList (h : List Prefix) :
    (coreList h).filter prefixEligible = coreList (h.filter prefixEligible) := by
  simp only [coreList, List.filter_map]
  rfl

theorem nodup_coreList {h : List Prefix} (hnd : (h.map (·.ptr)).Nodup) : (coreList h).Nodup :=
  List.Nodup.of_map (·.ptr) (by simpa using hnd)

/-- The best path is the first eligible one. -/
theorem prefixBest_eq_head {flags : RibFlags} (hev : flags.noevaluate = false) {h : List Prefix}
    (hf : EligibleFirst h) : prefixBest flags h = (h.filter prefixEligible).head? := by
  cases h with
  | nil => simp [prefixBest, hev]
  | cons x t =>
    cases hx : prefixEligible x with
    | true => simp [prefixBest, hev, hx]
    | false =>
      have ht : t.filter prefixEligible = [] := by
        rw [List.filter_eq_nil_iff]
        exact fun y hy hye => absurd ((List.pairwise_cons.mp hf).1 y hy hye) (by simp [hx])
      simp [prefixBest, hev, hx, ht]

/-- **The decision is history-free.** Without route-age evaluation, two runs of
    `prefix_evaluate` that end with the same listed paths end with the same sequence of
    eligible paths, these stand before all ineligible ones, and the best path is the same. -/
theorem evalRun_history_free (hra : c.flags.routeage = false) {flags : RibFlags}
    (hev : flags.noevaluate = false) {all : Bool} {ops₁ ops₂ : List EvalOp}
    {h₁ h₂ : List Prefix} (hr₁ : Run (evalStep c flags all) (EvalOk c) [] ops₁ h₁)
    (hr₂ : Run (evalStep c flags all) (EvalOk c) [] ops₂ h₂)
    (hset : ∀ p, p ∈ coreList h₁ ↔ p ∈ coreList h₂) :
    coreList (h₁.filter prefixEligible) = coreList (h₂.filter prefixEligible) ∧
      EligibleFirst h₁ ∧ EligibleFirst h₂ ∧
      (prefixBest flags h₁).map Prefix.core = (prefixBest flags h₂).map Prefix.core := by
  have hi₁ := evalInv_run hra hev hr₁
  have hi₂ := evalInv_run hra hev hr₂
  have hperm : (coreList h₁).Perm (coreList h₂) :=
    (List.perm_ext_iff_of_nodup (nodup_coreList hi₁.nodup) (nodup_coreList hi₂.nodup)).mpr hset
  have heq : coreList (h₁.filter prefixEligible) = coreList (h₂.filter prefixEligible) := by
    rw [← filter_coreList, ← filter_coreList]
    exact hi₁.queue.canon.eq_of_perm hi₂.queue.canon (hperm.filter _)
  have hf₁ := eligibleFirst_coreList.mp hi₁.queue.first
  have hf₂ := eligibleFirst_coreList.mp hi₂.queue.first
  refine ⟨heq, hf₁, hf₂, ?_⟩
  rw [prefixBest_eq_head hev hf₁, prefixBest_eq_head hev hf₂, ← List.head?_map, ← List.head?_map]
  exact congrArg List.head? heq

/-- Three paths that `prefix_cmp` prefers in a circle: `1` to `2` and `2` to `3` by the BGP
    identifier, `3` to `1` by the MED. -/
def circlePath (i med neighbor : ℕ) : Prefix :=
  { ptr := i, pt := ⟨.inet, 0, 0⟩, peer := i,
    aspath := some { aspath := [⟨.asSequence, [neighbor]⟩], med := med } }

/-- The peers of the paths, with the path number as BGP identifier. -/
def circleCtx : DecideCtx where
  peer i := { ebgp := true, remoteBgpid := i, remoteAddr := { aid := some .inet, addr := i } }

theorem evalRun_history_free_circle :
    ∃ h₁ h₂,
      Run (evalStep circleCtx {} false) (EvalOk circleCtx) []
        [.insert (circlePath 1 10 100), .insert (circlePath 2 0 200),
          .insert (circlePath 3 5 100)] h₁ ∧
      Run (evalStep circleCtx {} false) (EvalOk circleCtx) []
        [.insert (circlePath 3 5 100), .insert (circlePath 4 1 100), .insert (circlePath 2 0 200),
          .insert (circlePath 1 10 100), .remove (circlePath 4 1 100)] h₂ ∧
      h₁.map (·.ptr) = [2, 3, 1] ∧
      coreList (h₁.filter prefixEligible) = coreList (h₂.filter prefixEligible) := by
  obtain ⟨h₁, hr₁, hc₁⟩ := exists_run (evalStep circleCtx {} false) (EvalOk circleCtx) []
    [.insert (circlePath 1 10 100), .insert (circlePath 2 0 200), .insert (circlePath 3 5 100)]
    (fun h => coreList h = [circlePath 2 0 200, circlePath 3 5 100, circlePath 1 10 100])
    (by decide)
  obtain ⟨h₂, hr₂, hc₂⟩ := exists_run (evalStep circleCtx {} false) (EvalOk circleCtx) []
    [.insert (circlePath 3 5 100), .insert (circlePath 4 1 100), .insert (circlePath 2 0 200),
      .insert (circlePath 1 10 100), .remove (circlePath 4 1 100)]
    (fun h => coreList h = [circlePath 2 0 200, circlePath 3 5 100, circlePath 1 10 100])
    (by decide)
  refine ⟨h₁, h₂, hr₁, hr₂, ?_, ?_⟩
  · rw [← coreList_ptr, hc₁]
    rfl
  · exact (evalRun_history_free rfl rfl hr₁ hr₂ (by rw [hc₁, hc₂]; simp)).1

end Bgpd.Rde
