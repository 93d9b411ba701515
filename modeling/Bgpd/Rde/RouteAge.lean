import Bgpd.Rde.Dmetric
import Bgpd.Rde.Scratch

/-!
# Route Age and the Order of the List

With MED always and route age, `prefix_cmp` is one total order and the list of an entry is
sorted by it. `lastchange` is one of its keys, and `prefix_update` also writes it when nothing
else has changed. Then the path stays where it is. The list stays sorted unless the path behind
it ties in steps 2 to 8 and now is the older one.

## Main results

- `prefixInsert_ageOrdered`, `prefixRemove_always`: the decision process keeps the list sorted
- `ageOrdered_touch_iff`: when a new timestamp keeps it sorted
- `routeAge_run`: over runs of updates and withdrawals
-/

namespace Bgpd.Rde

open Bgpd.Lib

variable {c : DecideCtx} {p q x y : Prefix}

/-! ## One total order -/

/-- Steps 2 to 8 as one key, with MED always. -/
def agelessKey (c : DecideCtx) (p : Prefix) : List ℤ :=
  prefixLevel p ++
    [(p.asp.med : ℤ), if (c.peer p.peer).ebgp then 0 else 1, -(p.asp.weight : ℤ)]

/-- Steps 2 to 13 as one key. -/
def alwaysKey (c : DecideCtx) (p : Prefix) : List ℤ :=
  prefixLevel p ++ (p.asp.med : ℤ) :: agedTailKey c p

/-- With MED always every comparison decides at once. -/
theorem prefixCmp_testall (hm : c.flags.medAlways = true) (p q : Option Prefix) :
    (prefixCmp c p q).2 = 0 := by
  cases p with
  | none => rfl
  | some p =>
    cases q with
    | none => rfl
    | some q =>
      simp only [prefixCmp, hm, if_true]
      split_ifs <;> rfl

/-- With MED always compared, the better path has the smaller key. -/
theorem alwaysKey_lt (hm : c.flags.medAlways = true) (hp : prefixEligible p)
    (hq : prefixEligible q) (hpos : (prefixCmp c (some p) (some q)).1 > 0) :
    alwaysKey c p < alwaysKey c q := by
  have ht : ¬Tied c p q := by
    rw [← prefixCmp_eq_zero_iff hp hq]
    exact hpos.ne'
  have hv := ageVerdict hp hq ht
  generalize prefixCmp c (some p) (some q) = res at hv hpos
  rw [ageRanking, if_pos hm] at hv
  cases hv with
  | above _ h => exact h
  | blocks _ h => exact absurd h.2.2 (lt_irrefl _)
  | better _ hl _ _ hk =>
    -- paths on one level agree in all keys
    have heq := (List.append_inj hl rfl).2
    rw [List.cons.injEq] at heq
    exact absurd hk
      (by rw [show (alwaysBy (agedTailKey c)).key p = _ from heq.2]; exact lt_irrefl _)
  | below hrv => exact absurd hpos hrv
  | blocked hrv => exact absurd hpos hrv
  | worse hrv => exact absurd hpos hrv

/-- **The order**: `p` is better than `q`. -/
theorem prefixCmp_pos_iff (hm : c.flags.medAlways = true) (hp : prefixEligible p)
    (hq : prefixEligible q) :
    (prefixCmp c (some p) (some q)).1 > 0 ↔ alwaysKey c p < alwaysKey c q := by
  refine ⟨alwaysKey_lt hm hp hq, fun hlt => ?_⟩
  rcases prefixCmp_trichotomy (c := c) hp hq with ⟨h, -, -⟩ | ⟨-, h, -⟩ | ⟨-, -, h⟩
  · exact h
  · exact absurd (alwaysKey_lt hm hq hp h) hlt.not_gt
  · obtain ⟨hl, hs, hk⟩ := tied_iff.mp h
    rw [alwaysKey, alwaysKey, hl, hs (Or.inl hm), hk] at hlt
    exact absurd hlt (lt_irrefl _)

/-- Nothing loses against an ineligible path, and only an eligible path wins against an eligible
    one. -/
theorem eligible_of_pos (hq : prefixEligible q) (h : (prefixCmp c (some p) (some q)).1 > 0) :
    prefixEligible p := by
  by_contra hp
  rw [prefixCmp_ineligible_left (by simpa using hp) hq] at h
  exact absurd h (by decide)

theorem prefixCmp_trans (hm : c.flags.medAlways = true)
    (hxp : (prefixCmp c (some x) (some p)).1 > 0) (hpy : (prefixCmp c (some p) (some y)).1 > 0) :
    (prefixCmp c (some x) (some y)).1 > 0 := by
  cases hy : prefixEligible y with
  | false =>
    rw [prefixCmp_ineligible_right x hy]
    decide
  | true =>
    have hp := eligible_of_pos hy hpy
    have hx := eligible_of_pos hp hxp
    rw [prefixCmp_pos_iff hm hx hp] at hxp
    rw [prefixCmp_pos_iff hm hp hy] at hpy
    exact (prefixCmp_pos_iff hm hx hy).mpr (hxp.trans hpy)

/-- Of two paths that do not tie one wins. -/
theorem prefixCmp_of_not_pos (ht : prefixEligible p → prefixEligible q → ¬Tied c p q)
    (h : ¬(prefixCmp c (some p) (some q)).1 > 0) : (prefixCmp c (some q) (some p)).1 > 0 := by
  cases hq : prefixEligible q with
  | false =>
    rw [prefixCmp_ineligible_right p hq] at h
    exact absurd (by decide) h
  | true =>
    cases hp : prefixEligible p with
    | false =>
      rw [prefixCmp_ineligible_right q hp]
      decide
    | true =>
      rcases prefixCmp_trichotomy (c := c) hp hq with ⟨hpos, -, -⟩ | ⟨-, hpos, -⟩ | ⟨-, -, heq⟩
      · exact absurd hpos h
      · exact hpos
      · exact absurd heq (ht hp hq)

/-! ## Sorted lists -/

/-- Every path wins against those behind it. In particular the eligible paths stand first. -/
def AgeOrdered (c : DecideCtx) (h : List Prefix) : Prop :=
  h.Pairwise fun x y => (prefixCmp c (some x) (some y)).1 > 0

theorem ageOrdered_coreList {h : List Prefix} : AgeOrdered c (coreList h) ↔ AgeOrdered c h := by
  rw [AgeOrdered, coreList, List.pairwise_map]
  rfl

/-- With MED always the gap is where the first path stands that loses against the new one. -/
theorem gapScan_always (hm : c.flags.medAlways = true) (new : Prefix) (T P : List Prefix) :
    ∃ A B, T = A ++ B ∧ gapScan c new T { before := P } = { before := P ++ A, behind := B } ∧
      (∀ x ∈ A, ¬(prefixCmp c (some new) (some x)).1 > 0) ∧
      ∀ y ∈ B.head?, (prefixCmp c (some new) (some y)).1 > 0 := by
  induction T generalizing P with
  | nil => exact ⟨[], [], rfl, by simp [gapScan], by simp, by simp⟩
  | cons x T ih =>
    have ht := prefixCmp_testall hm (some new) (some x)
    rw [gapScan]
    by_cases hrv : (prefixCmp c (some new) (some x)).1 > 0
    · refine ⟨[], x :: T, rfl, by simp [hrv, ht], by simp, fun y hy => ?_⟩
      rw [List.head?_cons, Option.mem_some_iff] at hy
      exact hy ▸ hrv
    · obtain ⟨A, B, rfl, hg, hA, hB⟩ := ih (P ++ [x])
      refine ⟨x :: A, B, rfl, ?_, fun y hy => ?_, hB⟩
      · simp only [hrv, if_false, or_true, if_true, List.append_nil, hg, List.append_assoc,
          List.singleton_append]
      · rcases List.mem_cons.mp hy with rfl | hy
        · exact hrv
        · exact hA y hy

/-- With MED always an insertion takes nothing out. -/
theorem prefixInsert_always (hm : c.flags.medAlways = true) (new : Prefix) {h : List Prefix}
    (hnd : (h.map (·.ptr)).Nodup) :
    ∃ A B, coreList h = A ++ B ∧ coreList (prefixInsert c new none h) = A ++ new.core :: B ∧
      (∀ x ∈ A, ¬(prefixCmp c (some new.core) (some x)).1 > 0) ∧
      ∀ y ∈ B.head?, (prefixCmp c (some new.core) (some y)).1 > 0 := by
  obtain ⟨A, B, hsplit, hg, hA, hB⟩ := gapScan_always hm new.core (coreList h) []
  obtain ⟨hh, hredo⟩ := insertLevel_core (P := []) hnd (Entry.head h) rfl
  rw [coreList_nil, hg] at hh hredo
  refine ⟨A, B, hsplit, ?_, hA, hB⟩
  have hnone : (insertLevel c new none h).2 = [] := List.map_eq_nil_iff.mp hredo
  rw [prefixInsert, prefixInsertFuel_succ, hnone]
  exact hh

/-- `prefix_insert` keeps the list sorted. -/
theorem prefixInsert_ageOrdered (hm : c.flags.medAlways = true) {new : Prefix} {h : List Prefix}
    (hnd : (h.map (·.ptr)).Nodup) (ho : AgeOrdered c h)
    (ht : ∀ x ∈ h, prefixEligible new → prefixEligible x → ¬Tied c new x) :
    AgeOrdered c (prefixInsert c new none h) := by
  obtain ⟨A, B, hsplit, hins, hA, hB⟩ := prefixInsert_always hm new hnd
  rw [← ageOrdered_coreList] at ho ⊢
  rw [hsplit] at ho
  rw [hins]
  obtain ⟨hoA, hoB, hAB⟩ := List.pairwise_append.mp ho
  have htcore : ∀ x ∈ A, prefixEligible new.core → prefixEligible x → ¬Tied c new.core x := by
    intro x hx hn hxe
    have hmem : x ∈ coreList h := by
      rw [hsplit]
      exact List.mem_append_left _ hx
    obtain ⟨z, hz, rfl⟩ := List.mem_map.mp hmem
    rw [tied_core]
    exact ht z hz hn hxe
  have hbefore : ∀ x ∈ A, (prefixCmp c (some x) (some new.core)).1 > 0 := fun x hx =>
    prefixCmp_of_not_pos (htcore x hx) (hA x hx)
  have hbehind : ∀ y ∈ B, (prefixCmp c (some new.core) (some y)).1 > 0 := by
    cases B with
    | nil => exact List.forall_mem_nil _
    | cons b B =>
      have hb := hB b rfl
      refine List.forall_mem_cons.mpr ⟨hb, fun y hy => ?_⟩
      exact prefixCmp_trans hm hb ((List.pairwise_cons.mp hoB).1 y hy)
  refine List.pairwise_append.mpr ⟨hoA, List.pairwise_cons.mpr ⟨hbehind, hoB⟩, fun x hx y hy => ?_⟩
  rcases List.mem_cons.mp hy with rfl | hy
  · exact hbefore x hx
  · exact hAB x hx y hy

theorem takeOut_always (hm : c.flags.medAlways = true) (old : Prefix) (l : List Prefix) :
    takeOut c old l = (l, []) := by
  cases l with
  | nil => rfl
  | cons x l => simp [takeOut, prefixCmp_testall hm]

/-- With MED always `prefix_remove` takes out the given path and no other. -/
theorem prefixRemove_always (hm : c.flags.medAlways = true) {old o : Prefix} {X Y : List Prefix}
    (ho : o.ptr = old.ptr) (hnd : ((X ++ o :: Y).map (·.ptr)).Nodup) :
    coreList (prefixRemove c old (X ++ o :: Y)) = coreList (X ++ Y) := by
  obtain ⟨hh, hredo⟩ := removeLevel_core (c := c) ho hnd
  rw [takeOut_always hm] at hh hredo
  have hnone : (removeLevel c old (X ++ o :: Y)).2 = [] := List.map_eq_nil_iff.mp hredo
  rw [prefixRemove_eq, hnone, coreList_append]
  exact hh

/-! ## A new timestamp -/

/-- **The path behind is the older one now**: it ties in steps 2 to 8, and it was not last changed
    at the same reading of the clock, or it is not worse in steps 10 to 13. -/
structure AgeRival (c : DecideCtx) (p y : Prefix) (now : ℕ) : Prop where
  left : prefixEligible p
  right : prefixEligible y
  ageless : agelessKey c p = agelessKey c y
  older : y.lastchange < now ∨ y.lastchange = now ∧ ¬ tieKey c p < tieKey c y

instance (p y : Prefix) (now : ℕ) : Decidable (AgeRival c p y now) :=
  decidable_of_iff (prefixEligible p ∧ prefixEligible y ∧ agelessKey c p = agelessKey c y ∧
      (y.lastchange < now ∨ y.lastchange = now ∧ ¬ tieKey c p < tieKey c y))
    ⟨fun ⟨h₁, h₂, h₃, h₄⟩ => ⟨h₁, h₂, h₃, h₄⟩, fun ⟨h₁, h₂, h₃, h₄⟩ => ⟨h₁, h₂, h₃, h₄⟩⟩

theorem append_lt_append_iff {l₁ l₂ m₁ m₂ : List ℤ} (hlen : l₁.length = l₂.length) :
    l₁ ++ m₁ < l₂ ++ m₂ ↔ l₁ < l₂ ∨ l₁ = l₂ ∧ m₁ < m₂ := by
  induction l₁ generalizing l₂ with
  | nil =>
    rw [List.length_nil, eq_comm, List.length_eq_zero_iff] at hlen
    subst hlen
    simp
  | cons a l₁ ih =>
    cases l₂ with
    | nil => cases hlen
    | cons b l₂ =>
      simp only [List.cons_append, List.cons_lt_cons_iff, ih (Nat.succ.inj hlen), List.cons.injEq]
      tauto

/-- Only steps 2 to 8, the age and steps 10 to 13 matter. -/
theorem alwaysKey_lt_iff (hra : c.flags.routeage = true) :
    alwaysKey c p < alwaysKey c q ↔ agelessKey c p < agelessKey c q ∨
      agelessKey c p = agelessKey c q ∧ (p.lastchange < q.lastchange ∨
        p.lastchange = q.lastchange ∧ tieKey c p < tieKey c q) := by
  have hkey : ∀ p : Prefix, alwaysKey c p =
      agelessKey c p ++ ((p.lastchange : ℕ) : ℤ) :: tieKey c p := by
    intro p
    simp [alwaysKey, agelessKey, agedTailKey, ageKey, hra]
  have hlen : (agelessKey c p).length = (agelessKey c q).length := rfl
  rw [hkey, hkey, append_lt_append_iff hlen, List.cons_lt_cons_iff, Nat.cast_lt, Nat.cast_inj]

/-- With the new timestamp the path loses against an older rival. -/
theorem AgeRival.loses (hm : c.flags.medAlways = true) (hra : c.flags.routeage = true) {now : ℕ}
    (hr : AgeRival c p y now) :
    ¬(prefixCmp c (some { p with lastchange := now }) (some y)).1 > 0 := by
  have hel : prefixEligible { p with lastchange := now } = true := hr.left
  rw [prefixCmp_pos_iff hm hel hr.right, alwaysKey_lt_iff hra]
  rintro (h | ⟨-, h | ⟨h, ht⟩⟩)
  · exact h.ne hr.ageless
  · exact hr.older.elim (fun ho => absurd ho h.not_gt) fun ho => h.ne' ho.1
  · exact hr.older.elim (fun ho => ho.ne h.symm) fun ho => ho.2 ht

/-- A new timestamp keeps the list sorted exactly when the path behind is no older rival. -/
theorem ageOrdered_touch_iff (hm : c.flags.medAlways = true) (hra : c.flags.routeage = true)
    {A B : List Prefix} {now : ℕ} (ho : AgeOrdered c (A ++ p :: B))
    (hnow : ∀ x ∈ A ++ p :: B, x.lastchange ≤ now) :
    AgeOrdered c (A ++ { p with lastchange := now } :: B) ↔
      ∀ y ∈ B.head?, ¬AgeRival c p y now := by
  set p' : Prefix := { p with lastchange := now } with hp'
  have hel : prefixEligible p' = prefixEligible p := rfl
  have hkey : agelessKey c p' = agelessKey c p := rfl
  have htie : tieKey c p' = tieKey c p := rfl
  have hpnow : p.lastchange ≤ now := hnow p (by simp)
  obtain ⟨hA, hpB, hcross⟩ := List.pairwise_append.mp ho
  obtain ⟨hp, hB⟩ := List.pairwise_cons.mp hpB
  -- it still comes before the next one, unless that one is a rival by age
  have hhead : ∀ y ∈ B.head?, (prefixCmp c (some p') (some y)).1 > 0 ↔ ¬AgeRival c p y now := by
    intro y hy
    have hyB : y ∈ B := List.mem_of_mem_head? hy
    have hynow : y.lastchange ≤ now :=
      hnow y (List.mem_append_right _ (List.mem_cons_of_mem _ hyB))
    cases hye : prefixEligible y with
    | false =>
      rw [prefixCmp_ineligible_right p' hye]
      exact ⟨fun _ hr => absurd hr.right (by simp [hye]), fun _ => by decide⟩
    | true =>
      have hpe := eligible_of_pos hye (hp y hyB)
      have hlt := (prefixCmp_pos_iff hm hpe hye).mp (hp y hyB)
      refine ⟨fun h hr => hr.loses hm hra h, fun hr => ?_⟩
      rw [prefixCmp_pos_iff hm (hel.trans hpe) hye, alwaysKey_lt_iff hra, hkey, htie]
      rw [alwaysKey_lt_iff hra] at hlt
      rcases hlt with h | ⟨heq, -⟩
      · exact Or.inl h
      · refine Or.inr ⟨heq, Or.inr ?_⟩
        by_contra hcon
        refine hr ⟨hpe, hye, heq, ?_⟩
        rcases hynow.lt_or_eq with hlt | hage
        · exact Or.inl hlt
        · exact Or.inr ⟨hage, fun ht => hcon ⟨hage.symm, ht⟩⟩
  constructor
  · intro h y hy
    have hnext := List.pairwise_append.mp h |>.2.1
    exact (hhead y hy).mp ((List.pairwise_cons.mp hnext).1 y (List.mem_of_mem_head? hy))
  · intro hr
    -- the path has become younger, so those before it stay before it
    have hfront : ∀ x ∈ A, (prefixCmp c (some x) (some p')).1 > 0 := by
      intro x hx
      have hxp := hcross x hx p (List.mem_cons_self ..)
      cases hpe : prefixEligible p with
      | false =>
        rw [prefixCmp_ineligible_right x (hel.trans hpe)]
        decide
      | true =>
        have hxe := eligible_of_pos hpe hxp
        rw [prefixCmp_pos_iff hm hxe (hel.trans hpe), alwaysKey_lt_iff hra, hkey, htie]
        rw [prefixCmp_pos_iff hm hxe hpe, alwaysKey_lt_iff hra] at hxp
        rcases hxp with h | ⟨heq, h | ⟨hage, ht⟩⟩
        · exact Or.inl h
        · exact Or.inr ⟨heq, Or.inl (h.trans_le hpnow)⟩
        · rcases hpnow.lt_or_eq with hlt | hage'
          · exact Or.inr ⟨heq, Or.inl (hage ▸ hlt)⟩
          · exact Or.inr ⟨heq, Or.inr ⟨hage.trans hage', ht⟩⟩
    -- what is behind the next path follows from the order of the list
    have hback : ∀ y ∈ B, (prefixCmp c (some p') (some y)).1 > 0 := by
      cases B with
      | nil => exact List.forall_mem_nil _
      | cons b B =>
        have hb := (hhead b rfl).mpr (hr b rfl)
        refine List.forall_mem_cons.mpr ⟨hb, fun y hy => ?_⟩
        exact prefixCmp_trans hm hb ((List.pairwise_cons.mp hB).1 y hy)
    refine List.pairwise_append.mpr ⟨hA, List.pairwise_cons.mpr ⟨hback, hB⟩, fun x hx y hy => ?_⟩
    rcases List.mem_cons.mp hy with rfl | hy
    · exact hfront x hx
    · exact hcross x hx y (List.mem_cons_of_mem _ hy)

/-! ## The list of an entry -/

/-- The list of an entry of an evaluated RIB. `n` bounds the addresses of its paths, and no
    timestamp is later than the readings of the clock still to come. -/
structure AgeList (c : DecideCtx) (n : Ptr) (ts : List ℕ) (h : List Prefix) : Prop where
  ordered : AgeOrdered c h
  ptrs : (h.map (·.ptr)).Nodup
  old : ∀ x ∈ h, x.ptr < n
  past : ∀ x ∈ h, ∀ t ∈ ts, x.lastchange ≤ t

variable {n n' : Ptr} {t : ℕ} {ts us : List ℕ} {h k : List Prefix}

theorem core_ptr_eq (h : x.core = y.core) : x.ptr = y.ptr := by
  rw [← Prefix.core_ptr, h, Prefix.core_ptr]

theorem core_lastchange_eq (h : x.core = y.core) : x.lastchange = y.lastchange :=
  (congrArg Prefix.lastchange h : x.core.lastchange = y.core.lastchange)

/-- Fewer paths. -/
theorem AgeList.sublist (hk : AgeList c n ts k) (hs : (coreList h).Sublist (coreList k)) :
    AgeList c n ts h := by
  have hmem : ∀ x ∈ h, ∃ y ∈ k, y.core = x.core := fun x hx =>
    List.mem_map.mp (hs.subset (List.mem_map_of_mem hx))
  refine ⟨?_, ?_, fun x hx => ?_, fun x hx => ?_⟩
  · rw [← ageOrdered_coreList]
    exact (ageOrdered_coreList.mpr hk.ordered).sublist hs
  · rw [← coreList_ptr]
    exact List.Nodup.sublist (hs.map _) (by simpa using hk.ptrs)
  · obtain ⟨y, hy, heq⟩ := hmem x hx
    exact core_ptr_eq heq ▸ hk.old y hy
  · obtain ⟨y, hy, heq⟩ := hmem x hx
    exact core_lastchange_eq heq ▸ hk.past y hy

/-- Later readings, and more addresses. -/
theorem AgeList.later (hh : AgeList c n us h) (hts : ∀ t ∈ ts, t ∈ us) (hn : n ≤ n') :
    AgeList c n' ts h :=
  ⟨hh.ordered, hh.ptrs, fun x hx => (hh.old x hx).trans_le hn,
    fun x hx t ht => hh.past x hx t (hts t ht)⟩

/-- A path is inserted. -/
theorem AgeList.insert (hm : c.flags.medAlways = true) (hh : AgeList c n ts h) {new : Prefix}
    (hnew : new.ptr ∉ h.map (·.ptr)) (hptr : new.ptr < n) (hpast : ∀ t ∈ ts, new.lastchange ≤ t)
    (ht : ∀ x ∈ h, prefixEligible new → prefixEligible x → ¬Tied c new x) :
    AgeList c n ts (prefixInsert c new none h) := by
  have hnd : ((new :: h).map (·.ptr)).Nodup := List.nodup_cons.mpr ⟨hnew, hh.ptrs⟩
  have hp := prefixInsert_perm (c := c) hnd
  have hmem : ∀ x ∈ prefixInsert c new none h, ∃ y ∈ new :: h, y.core = x.core := fun x hx =>
    List.mem_map.mp (hp.mem_iff.mp (List.mem_map_of_mem hx))
  refine ⟨prefixInsert_ageOrdered hm hh.ptrs hh.ordered ht,
    nodup_of_coreList_perm hp (by simpa using hnd), fun x hx => ?_, fun x hx => ?_⟩
  · obtain ⟨y, hy, heq⟩ := hmem x hx
    rw [← core_ptr_eq heq]
    rcases List.mem_cons.mp hy with rfl | hy
    · exact hptr
    · exact hh.old y hy
  · obtain ⟨y, hy, heq⟩ := hmem x hx
    rw [← core_lastchange_eq heq]
    rcases List.mem_cons.mp hy with rfl | hy
    · exact hpast
    · exact hh.past y hy

/-- What `prefix_remove` leaves. -/
theorem coreList_prefixRemove (hm : c.flags.medAlways = true) (hnd : (h.map (·.ptr)).Nodup)
    (hp : p.ptr ∈ h.map (·.ptr)) :
    coreList (prefixRemove c p h) = coreList (tailqRemove h p.ptr) := by
  obtain ⟨o, ho, hptr⟩ := List.mem_map.mp hp
  obtain ⟨X, Y, rfl⟩ := List.append_of_mem ho
  rw [prefixRemove_always hm hptr hnd, ← hptr, tailqRemove_middle hnd]

/-! ## Updates and withdrawals -/

variable {cfg : RdeConfig} {s s₁ s' : RdeState} {rib : ℕ} {pt : PtEntry} {a : PathArgs}

/-- At most the list of one entry differs. -/
structure OnlyEntry (cfg : RdeConfig) (rib : ℕ) (pt : PtEntry) (s s' : RdeState) : Prop where
  ctx : s'.decideCtx cfg = s.decideCtx cfg
  other : ∀ r k, ¬(r = rib ∧ k = pt) → (s'.entry r k).prefixH = (s.entry r k).prefixH
  ptr : s.nextPtr ≤ s'.nextPtr

theorem OnlyEntry.refl (s : RdeState) : OnlyEntry cfg rib pt s s :=
  ⟨rfl, fun _ _ _ => rfl, le_refl _⟩

theorem OnlyEntry.trans (h : OnlyEntry cfg rib pt s s₁) (h' : OnlyEntry cfg rib pt s₁ s') :
    OnlyEntry cfg rib pt s s' :=
  ⟨h'.ctx.trans h.ctx, fun r k hk => (h'.other r k hk).trans (h.other r k hk), h.ptr.trans h'.ptr⟩

theorem OnlyEntry.setEntry (s : RdeState) (re : RibEntry) :
    OnlyEntry cfg rib pt s (s.setEntry rib pt re) :=
  ⟨rfl, fun r k hk => by rw [setEntry_entry, if_neg hk], le_refl _⟩

theorem OnlyEntry.addKey (cfg : RdeConfig) (rib : ℕ) (pt : PtEntry) (s : RdeState) (k : PtEntry) :
    OnlyEntry cfg rib pt s (s.addKey k) := by
  unfold RdeState.addKey
  split_ifs
  · exact OnlyEntry.refl s
  · exact ⟨rfl, fun _ _ _ => rfl, le_refl _⟩

theorem OnlyEntry.evaluate (cfg : RdeConfig) (rib : ℕ) (pt : PtEntry) (s : RdeState)
    (new old : Option Prefix) : OnlyEntry cfg rib pt s (s.evaluate cfg rib pt new old) := by
  unfold RdeState.evaluate
  split
  · next ev _ =>
    rcases applyEvaluation_eq (s := s) rib pt ev with ⟨heq, -⟩ | ⟨q, heq⟩
    · rw [heq]
      exact OnlyEntry.setEntry s _
    · rw [heq]
      refine (OnlyEntry.setEntry s _).trans ⟨?_, fun _ _ _ => rfl, le_refl _⟩
      unfold RdeState.decideCtx RdeState.enqueueEntry
      congr 1
      funext r
      by_cases hr : r = q
      · simp [RdeState.setPeer, RdeState.setEntry, hr]
      · simp [RdeState.setPeer, RdeState.setEntry, hr]
  · exact OnlyEntry.refl s

theorem OnlyEntry.prefixUpdate (hrun : s.prefixUpdate cfg a = .ok s') :
    OnlyEntry cfg a.rib a.pt s s' := by
  have hptr : OnlyEntry cfg a.rib a.pt s { s with nextPtr := s.nextPtr + 1 } :=
    ⟨rfl, fun _ _ _ => rfl, Nat.le_succ _⟩
  unfold RdeState.prefixUpdate at hrun
  split at hrun
  · obtain rfl := Except.ok.inj hrun
    exact (hptr.trans (OnlyEntry.addKey ..)).trans (OnlyEntry.evaluate ..)
  · next p _ =>
    have htouch : OnlyEntry cfg a.rib a.pt s (s.touch a.rib a.pt p.ptr a.now) :=
      OnlyEntry.setEntry s _
    dsimp only at hrun
    split_ifs at hrun
    · obtain rfl := Except.ok.inj hrun
      exact htouch
    · obtain rfl := Except.ok.inj hrun
      exact (htouch.trans (OnlyEntry.evaluate ..)).trans (OnlyEntry.evaluate ..)
    · obtain rfl := Except.ok.inj hrun
      exact hptr.trans (OnlyEntry.evaluate ..)

theorem OnlyEntry.prefixWithdraw (s : RdeState) (peer : PeerId) (pathId : ℕ) :
    OnlyEntry cfg rib pt s (s.prefixWithdraw cfg rib peer pathId pt) := by
  unfold RdeState.prefixWithdraw
  split
  · exact OnlyEntry.evaluate ..
  · exact OnlyEntry.refl s

/-- `prefix_update` finds no change in the listed path. -/
def PathArgs.unchanged (a : PathArgs) (p : Prefix) : Prop :=
  p.nexthop = a.state.nexthop ∧ p.nhflags = a.state.nhflags ∧
    p.communities = a.state.communities ∧ p.aspath = some a.state.aspath

instance (a : PathArgs) (p : Prefix) : Decidable (a.unchanged p) :=
  inferInstanceAs (Decidable (_ ∧ _))

/-- The listed path that an update only gives a new timestamp. -/
def RdeState.inPlace (s : RdeState) (a : PathArgs) : Option Prefix :=
  (s.prefixGet a.rib a.peer a.pathId a.pt).filter fun p =>
    a.unchanged p ∧ p.filtered = a.filtered ∧ p.validationState = a.state.vstate

/-- The path that any other update puts into the list. -/
def RdeState.announced (cfg : RdeConfig) (s : RdeState) (a : PathArgs) : Prefix :=
  match (s.prefixGet a.rib a.peer a.pathId a.pt).filter fun p => a.unchanged p with
  | some p =>
    { p with lastchange := a.now, filtered := a.filtered, validationState := a.state.vstate }
  | none => s.prefixLink cfg a

/-- The listed paths that it does not replace. -/
def RdeState.others (s : RdeState) (a : PathArgs) : List Prefix :=
  match s.prefixGet a.rib a.peer a.pathId a.pt with
  | some p => tailqRemove (s.entry a.rib a.pt).prefixH p.ptr
  | none => (s.entry a.rib a.pt).prefixH

theorem prefixUpdate_inPlace (hp : p ∈ s.inPlace a) (hrun : s.prefixUpdate cfg a = .ok s') :
    p ∈ (s.entry a.rib a.pt).prefixH ∧ s' = s.touch a.rib a.pt p.ptr a.now := by
  obtain ⟨hget, hsame⟩ := Option.filter_eq_some_iff.mp hp
  obtain ⟨hun, hf, hv⟩ := of_decide_eq_true hsame
  refine ⟨(prefixGet_some hget).1, ?_⟩
  rw [RdeState.prefixUpdate, hget] at hrun
  dsimp only at hrun
  unfold PathArgs.unchanged at hun
  split_ifs at hrun with hid hc
  · exact (Except.ok.inj hrun).symm
  · exact absurd ⟨hf, hv⟩ hc

/-- The timestamps of the other paths do not change. -/
theorem tailqRemove_touch (h : List Prefix) (q : Ptr) (now : ℕ) :
    tailqRemove (h.map fun x => if x.ptr = q then { x with lastchange := now } else x) q =
      tailqRemove h q := by
  induction h with
  | nil => rfl
  | cons x h ih =>
    unfold tailqRemove at ih ⊢
    by_cases hx : x.ptr = q
    · rw [List.map_cons, if_pos hx, List.filter_cons_of_neg (by simp [hx]),
        List.filter_cons_of_neg (by simp [hx]), ih]
    · rw [List.map_cons, if_neg hx, List.filter_cons_of_pos (by simp [hx]),
        List.filter_cons_of_pos (by simp [hx]), ih]

/-- An evaluation in a state with the same list. -/
theorem evaluate_insert (hev : (cfg.ribFlags rib).noevaluate = false) {new : Prefix}
    {old : Option Prefix} (hc : s₁.decideCtx cfg = c) (hh : (s₁.entry rib pt).prefixH = h) :
    ((s₁.evaluate cfg rib pt (some new) old).entry rib pt).prefixH =
      prefixInsert c new none (removeOld c old h) := by
  rw [evaluate_prefixH hev (Or.inl rfl), hc, hh]
  rfl

/-- The list after an update that does more than that. -/
theorem prefixUpdate_list (hm : cfg.decision.medAlways = true)
    (hev : (cfg.ribFlags a.rib).noevaluate = false)
    (hl : AgeList (s.decideCtx cfg) n ts (s.entry a.rib a.pt).prefixH) (hn : n = s.nextPtr)
    (hp : s.inPlace a = none) (hrun : s.prefixUpdate cfg a = .ok s') :
    (s.announced cfg a).ptr ∉ (s.others a).map (·.ptr) ∧
      (s.announced cfg a).ptr < s'.nextPtr ∧ ∃ h, coreList h = coreList (s.others a) ∧
        (s'.entry a.rib a.pt).prefixH =
          prefixInsert (s.decideCtx cfg) (s.announced cfg a) none h := by
  subst hn
  have hfresh : s.nextPtr ∉ (s.entry a.rib a.pt).prefixH.map (·.ptr) := by
    intro hmem
    obtain ⟨x, hx, hptr⟩ := List.mem_map.mp hmem
    exact (hl.old x hx).ne hptr
  rw [RdeState.prefixUpdate] at hrun
  unfold RdeState.inPlace at hp
  unfold RdeState.announced RdeState.others
  cases hget : s.prefixGet a.rib a.peer a.pathId a.pt with
  -- a path that was not there is new
  | none =>
    rw [hget] at hrun
    obtain rfl := Except.ok.inj hrun
    have hadd := OnlyEntry.addKey cfg a.rib a.pt { s with nextPtr := s.nextPtr + 1 } a.pt
    have heval := OnlyEntry.evaluate cfg a.rib a.pt
        ({ s with nextPtr := s.nextPtr + 1 }.addKey a.pt)
      (some (s.prefixLink cfg a)) none
    have hentry : (({ s with nextPtr := s.nextPtr + 1 }.addKey a.pt).entry a.rib a.pt).prefixH =
        (s.entry a.rib a.pt).prefixH := by
      unfold RdeState.addKey
      split_ifs <;> rfl
    refine ⟨hfresh, ?_, _, rfl, evaluate_insert hev hadd.ctx hentry⟩
    exact Nat.lt_of_succ_le (hadd.ptr.trans heval.ptr)
  | some p =>
    have hmem := (prefixGet_some hget).1
    have hmem' : p.ptr ∈ (s.entry a.rib a.pt).prefixH.map (·.ptr) := List.mem_map_of_mem hmem
    rw [hget] at hrun hp
    dsimp only at hrun ⊢
    by_cases hun : a.unchanged p
    -- only the flags are new: the path is taken out and put back
    · have hfil : (some p).filter (fun p => decide (a.unchanged p)) = some p := by simp [hun]
      simp only [hfil]
      have hkeep : ¬(p.filtered = a.filtered ∧ p.validationState = a.state.vstate) := by
        intro hk
        rw [Option.filter_eq_none_iff] at hp
        exact hp p rfl (by simp [hun, hk])
      set s₁ := s.touch a.rib a.pt p.ptr a.now with hs₁
      set p₁ : Prefix := { p with lastchange := a.now } with hp₁
      have htouch : OnlyEntry cfg a.rib a.pt s s₁ := OnlyEntry.setEntry s _
      have hold : OnlyEntry cfg a.rib a.pt s₁ (s₁.evaluate cfg a.rib a.pt none (some p₁)) :=
        OnlyEntry.evaluate ..
      have hlist : (s₁.entry a.rib a.pt).prefixH = (s.entry a.rib a.pt).prefixH.map
          fun x => if x.ptr = p.ptr then { x with lastchange := a.now } else x := by
        rw [hs₁, RdeState.touch, setEntry_entry, if_pos ⟨rfl, rfl⟩]
      have hptrs : (s₁.entry a.rib a.pt).prefixH.map (·.ptr) =
          (s.entry a.rib a.pt).prefixH.map (·.ptr) := by
        rw [hlist, List.map_map]
        refine List.map_congr_left fun x _ => ?_
        simp only [Function.comp_apply]
        split_ifs <;> rfl
      have hrest := coreList_prefixRemove (c := s.decideCtx cfg) (p := p₁) hm
        (hptrs ▸ hl.ptrs) (hptrs ▸ hmem')
      have hout : ((s₁.evaluate cfg a.rib a.pt none (some p₁)).entry a.rib a.pt).prefixH =
          prefixRemove (s.decideCtx cfg) p₁ (s₁.entry a.rib a.pt).prefixH := by
        rw [evaluate_prefixH hev (Or.inr rfl), htouch.ctx]
        rfl
      have hs' : s' = (s₁.evaluate cfg a.rib a.pt none (some p₁)).evaluate cfg a.rib a.pt
          (some { p₁ with filtered := a.filtered, validationState := a.state.vstate }) none := by
        unfold PathArgs.unchanged at hun
        split_ifs at hrun
        exact (Except.ok.inj hrun).symm
      subst hs'
      refine ⟨?_, ?_, _, ?_, evaluate_insert hev (hold.ctx.trans htouch.ctx) hout⟩
      · intro hin
        obtain ⟨x, hx, hptr⟩ := List.mem_map.mp hin
        exact absurd hptr (by simpa using (List.mem_filter.mp hx).2)
      · exact ((hl.old p hmem).trans_le (htouch.ptr.trans hold.ptr)).trans_le
          (OnlyEntry.evaluate ..).ptr
      · refine hrest.trans ?_
        rw [hlist]
        exact congrArg coreList (tailqRemove_touch _ _ _)
    -- other attributes: the old path goes and a new one comes
    · have hfil : (some p).filter (fun p => decide (a.unchanged p)) = none := by simp [hun]
      simp only [hfil]
      have hrest := coreList_prefixRemove (c := s.decideCtx cfg) hm hl.ptrs hmem'
      have hs' : s' = s.prefixMove cfg a p := by
        unfold PathArgs.unchanged at hun
        split_ifs at hrun
        exact (Except.ok.inj hrun).symm
      subst hs'
      have heval := OnlyEntry.evaluate cfg a.rib a.pt { s with nextPtr := s.nextPtr + 1 }
        (some (s.prefixLink cfg a)) (some p)
      exact ⟨fun hin => hfresh ((List.filter_sublist.map _).subset hin),
        Nat.lt_of_succ_le heval.ptr, _, hrest, evaluate_insert hev rfl rfl⟩

/-! ## Runs -/

/-- A call of `prefix_update` or `prefix_withdraw` that does not end in the `fatalx` of
    `prefix_cmp`: no listed path ties in all steps with the one that is inserted. -/
def Event.pathCall (cfg : RdeConfig) (s : RdeState) : Event → Prop
  | .update a => (cfg.ribFlags a.rib).noevaluate = false → s.inPlace a = none →
      ∀ x ∈ s.others a, prefixEligible (s.announced cfg a) → prefixEligible x →
        ¬Tied (s.decideCtx cfg) (s.announced cfg a) x
  | .withdraw .. => True
  | _ => False

/-- **Where the order is lost**: an update that changes nothing makes the path younger than the
    eligible path behind it, and steps 2 to 8 do not tell the two apart. -/
def Event.restartsAge (cfg : RdeConfig) (s : RdeState) : Event → Prop
  | .update a => (cfg.ribFlags a.rib).noevaluate = false ∧ ∃ p ∈ s.inPlace a,
      ∃ y ∈ tailqNext (s.entry a.rib a.pt).prefixH p.ptr, AgeRival (s.decideCtx cfg) p y a.now
  | _ => False

/-- The reading of the clock. -/
def Event.reading : Event → Option ℕ
  | .update a => some a.now
  | _ => none

/-- In every evaluated RIB each eligible path wins against the eligible path behind it. -/
def AgeSorted (cfg : RdeConfig) (s : RdeState) : Prop :=
  ∀ rib, (cfg.ribFlags rib).noevaluate = false → ∀ pt A x y B,
    (s.entry rib pt).prefixH = A ++ x :: y :: B → prefixEligible x → prefixEligible y →
      (prefixCmp (s.decideCtx cfg) (some x) (some y)).1 > 0

/-- The invariant. `ts` are the readings of the clock still to come. -/
def AgeInv (cfg : RdeConfig) (ts : List ℕ) (s : RdeState) : Prop :=
  ∀ rib, (cfg.ribFlags rib).noevaluate = false → ∀ pt,
    AgeList (s.decideCtx cfg) s.nextPtr ts (s.entry rib pt).prefixH

theorem AgeInv.sorted (h : AgeInv cfg ts s) : AgeSorted cfg s := by
  intro rib hev pt A x y B hsplit _ _
  have ho := (h rib hev pt).ordered
  rw [hsplit] at ho
  exact List.pairwise_iff_forall_sublist.mp ho
    (((List.nil_sublist B).cons_cons y |>.cons_cons x).trans (List.sublist_append_right ..))

/-- A step that changes one entry. -/
theorem AgeInv.only (h : AgeInv cfg us s) (ho : OnlyEntry cfg rib pt s s')
    (hts : ∀ t ∈ ts, t ∈ us) (hl : (cfg.ribFlags rib).noevaluate = false →
      AgeList (s.decideCtx cfg) s'.nextPtr ts (s'.entry rib pt).prefixH) : AgeInv cfg ts s' := by
  intro r hev k
  rw [ho.ctx]
  by_cases hk : r = rib ∧ k = pt
  · obtain ⟨rfl, rfl⟩ := hk
    exact hl hev
  · rw [ho.other r k hk]
    exact (h r hev k).later hts ho.ptr

theorem others_sublist (s : RdeState) (a : PathArgs) :
    (s.others a).Sublist (s.entry a.rib a.pt).prefixH := by
  unfold RdeState.others
  split
  · exact List.filter_sublist
  · exact List.Sublist.refl _

theorem announced_lastchange (s : RdeState) (a : PathArgs) :
    (s.announced cfg a).lastchange = a.now := by
  unfold RdeState.announced
  split <;> rfl

theorem map_touch_of_not_mem {l : List Prefix} {q : Ptr} (now : ℕ) (hq : q ∉ l.map (·.ptr)) :
    (l.map fun x => if x.ptr = q then { x with lastchange := now } else x) = l := by
  refine (List.map_congr_left fun x hx => if_neg fun hptr => ?_).trans (List.map_id l)
  exact hq (List.mem_map.mpr ⟨x, hx, hptr⟩)

/-- The list with the new timestamp. -/
theorem touch_list {A B : List Prefix} (hsplit : (s.entry rib pt).prefixH = A ++ p :: B)
    (hnd : ((A ++ p :: B).map (·.ptr)).Nodup) (now : ℕ) :
    ((s.touch rib pt p.ptr now).entry rib pt).prefixH =
      A ++ { p with lastchange := now } :: B := by
  rw [List.map_append, List.map_cons, List.nodup_middle, List.nodup_cons, List.mem_append,
    not_or] at hnd
  rw [RdeState.touch, setEntry_entry, if_pos ⟨rfl, rfl⟩, hsplit]
  simp only [List.map_append, List.map_cons, if_true, map_touch_of_not_mem now hnd.1.1,
    map_touch_of_not_mem now hnd.1.2]

/-- An update keeps the invariant, and otherwise the order is lost. -/
theorem AgeInv.update (hm : cfg.decision.medAlways = true) (hra : cfg.decision.routeage = true)
    (h : AgeInv cfg (a.now :: ts) s) (hts : ∀ t ∈ ts, a.now ≤ t)
    (he : Event.pathCall cfg s (.update a)) (hrun : s.prefixUpdate cfg a = .ok s') :
    (¬Event.restartsAge cfg s (.update a) → AgeInv cfg ts s') ∧
      (AgeSorted cfg s' → ¬Event.restartsAge cfg s (.update a)) := by
  have ho := OnlyEntry.prefixUpdate hrun
  have hsub : ∀ t ∈ ts, t ∈ a.now :: ts := fun t ht => List.mem_cons_of_mem _ ht
  cases hp : s.inPlace a with
  -- the path is inserted again
  | none =>
    refine ⟨fun _ => h.only ho hsub fun hev => ?_, fun _ hr => ?_⟩
    · have hl := h a.rib hev a.pt
      obtain ⟨hnew, hptr, k, hk, hlist⟩ := prefixUpdate_list hm hev hl rfl hp hrun
      rw [hlist]
      have hks : (coreList k).Sublist (coreList (s.entry a.rib a.pt).prefixH) :=
        hk ▸ (others_sublist s a).map _
      have hmem : ∀ x ∈ k, ∃ y ∈ s.others a, y.core = x.core := by
        intro x hx
        have hx' : x.core ∈ coreList k := List.mem_map_of_mem hx
        rw [hk] at hx'
        exact List.mem_map.mp hx'
      refine ((hl.sublist hks).later hsub ho.ptr).insert hm ?_ hptr ?_ fun x hx hn hxe ht => ?_
      · rw [← coreList_ptr, hk, coreList_ptr]
        exact hnew
      · rw [announced_lastchange]
        exact hts
      · obtain ⟨y, hy, hyx⟩ := hmem x hx
        refine he hev hp y hy hn ?_ ?_
        · rw [← prefixEligible_core, hyx, prefixEligible_core]
          exact hxe
        · rw [← tied_core, hyx, tied_core]
          exact ht
    · obtain ⟨-, p, hp', -⟩ := hr
      rw [hp] at hp'
      cases hp'
  -- only its time is new
  | some p =>
    obtain ⟨hmem, rfl⟩ := prefixUpdate_inPlace (Option.mem_def.mpr hp) hrun
    obtain ⟨A, B, hsplit⟩ := List.append_of_mem hmem
    have hiff : (cfg.ribFlags a.rib).noevaluate = false →
        (Event.restartsAge cfg s (.update a) ↔
          ∃ y ∈ B.head?, AgeRival (s.decideCtx cfg) p y a.now) := by
      intro hev
      have hnd := (h a.rib hev a.pt).ptrs
      rw [hsplit] at hnd
      have hnext : tailqNext (s.entry a.rib a.pt).prefixH p.ptr = B.head? := by
        rw [hsplit]
        exact tailqNext_middle rfl hnd
      simp [Event.restartsAge, hp, hev, hnext]
    refine ⟨fun hr => h.only ho hsub fun hev => ?_, fun hsorted hr => ?_⟩
    · have hl := h a.rib hev a.pt
      rw [hiff hev] at hr
      rw [hsplit] at hl
      rw [touch_list hsplit hl.ptrs]
      refine ⟨(ageOrdered_touch_iff hm hra hl.ordered fun x hx =>
        hl.past x hx a.now (List.mem_cons_self ..)).mpr fun y hy hrival => hr ⟨y, hy, hrival⟩,
        ?_, fun x hx => ?_, fun x hx t ht => ?_⟩
      · simpa using hl.ptrs
      · rw [List.mem_append, List.mem_cons] at hx
        rcases hx with hx | rfl | hx
        · exact hl.old x (by simp [hx])
        · exact hl.old p (by simp)
        · exact hl.old x (by simp [hx])
      · rw [List.mem_append, List.mem_cons] at hx
        rcases hx with hx | rfl | hx
        · exact hl.past x (by simp [hx]) t (hsub t ht)
        · exact hts t ht
        · exact hl.past x (by simp [hx]) t (hsub t ht)
    · have hev := hr.1
      have hl := h a.rib hev a.pt
      rw [hsplit] at hl
      -- the rival behind the path makes the list unsorted
      obtain ⟨y, hy, hrival⟩ := (hiff hev).mp hr
      obtain ⟨B', rfl⟩ : ∃ B', B = y :: B' := by
        cases B with
        | nil => simp at hy
        | cons b B =>
          rw [List.head?_cons, Option.mem_some_iff] at hy
          exact ⟨B, by rw [hy]⟩
      have hpos := hsorted a.rib hev a.pt A _ y B' (touch_list hsplit hl.ptrs a.now) hrival.left
        hrival.right
      exact hrival.loses hm hra hpos

/-- A withdrawal keeps the invariant. -/
theorem AgeInv.withdraw (hm : cfg.decision.medAlways = true) (h : AgeInv cfg ts s)
    (rib : ℕ) (peer : PeerId) (pathId : ℕ) (pt : PtEntry) :
    AgeInv cfg ts (s.prefixWithdraw cfg rib peer pathId pt) := by
  have ho : OnlyEntry cfg rib pt s (s.prefixWithdraw cfg rib peer pathId pt) :=
    OnlyEntry.prefixWithdraw s peer pathId
  refine h.only ho (fun t ht => ht) fun hev => ?_
  have hl := h rib hev pt
  unfold RdeState.prefixWithdraw at ho ⊢
  cases hget : s.prefixGet rib peer pathId pt with
  | none => exact hl
  | some p =>
    rw [hget] at ho
    have hmem : p.ptr ∈ (s.entry rib pt).prefixH.map (·.ptr) :=
      List.mem_map_of_mem (prefixGet_some hget).1
    have hlist : ((s.prefixDestroy cfg rib pt p).entry rib pt).prefixH =
        prefixRemove (s.decideCtx cfg) p (s.entry rib pt).prefixH :=
      evaluate_prefixH hev (Or.inr rfl)
    dsimp only
    rw [hlist]
    refine (hl.sublist ?_).later (fun t ht => ht) ho.ptr
    rw [coreList_prefixRemove hm hl.ptrs hmem]
    exact List.filter_sublist.map _

/-- Runs of updates and withdrawals that restart no age. -/
theorem AgeInv.run (hm : cfg.decision.medAlways = true) (hra : cfg.decision.routeage = true)
    {es fs : List Event} (hclock : ((es ++ fs).filterMap Event.reading).Pairwise (· ≤ ·))
    (h : AgeInv cfg ((es ++ fs).filterMap Event.reading) s)
    (hrun : Run (rdeStep cfg) (fun s e => e.pathCall cfg s ∧ ¬e.restartsAge cfg s) s es s') :
    AgeInv cfg (fs.filterMap Event.reading) s' := by
  induction hrun with
  | nil s => exact h
  | @cons s s₁ s' e es hok hstep _ ih =>
    have hrun := rdeStep_eq hstep
    cases e with
    | update a =>
      replace h : AgeInv cfg (a.now :: (es ++ fs).filterMap Event.reading) s := h
      obtain ⟨hts, hclock⟩ := List.pairwise_cons.mp
        (show (a.now :: (es ++ fs).filterMap Event.reading).Pairwise (· ≤ ·) from hclock)
      exact ih hclock ((h.update hm hra hts hok.1 hrun).1 hok.2)
    | withdraw rib peer pathId pt =>
      obtain rfl := Except.ok.inj hrun
      replace h : AgeInv cfg ((es ++ fs).filterMap Event.reading) s := h
      exact ih hclock (h.withdraw hm rib peer pathId pt)
    | _ => exact False.elim hok.1

instance (s : RdeState) (e : Event) : Decidable (e.pathCall cfg s) :=
  match e with
  | .update _ => inferInstanceAs (Decidable (_ → _ → _))
  | .withdraw .. => isTrue trivial
  | .flush .. | .nexthop .. | .process _ | .dump .. | .up .. | .down _ | .stale ..
  | .sendWithdraws .. | .sendUpdate .. => isFalse id

instance (s : RdeState) (e : Event) : Decidable (e.restartsAge cfg s) :=
  match e with
  | .update _ => inferInstanceAs (Decidable (_ ∧ _))
  | .withdraw .. | .flush .. | .nexthop .. | .process _ | .dump .. | .up .. | .down _ | .stale ..
  | .sendWithdraws .. | .sendUpdate .. => isFalse id

/-- A peer announces the destination with the same attributes as always. -/
def announce (q : PeerId) (now : ℕ) : Event :=
  .update { rib := 1, peer := q, pathIdTx := q, pt := samplePt, now := now }

end Bgpd.Rde
