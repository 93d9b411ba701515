import Mathlib.Data.List.Perm.Basic
import Mathlib.Data.List.Nodup
import Mathlib.Order.Basic
import Mathlib.Algebra.Order.Ring.Nat
import Mathlib.Tactic.Tauto

/-!
# Greedy Orders with Blocking

A comparison that is not transitive can still determine a list uniquely. This module
treats the case where elements carry

- a `level`, compared first,
- a `group` with a value `med` that is compared only inside one group, and
- a `key` that decides everything else.

Inside a level an element with a smaller `med` *blocks* the members of its group with a
larger one: these may not be listed before it, whatever their `key`. The list is built
greedily: at each position stands the element with the best key among those that are not
blocked by an element still to come.

## Main results

- `Ranking.Canon.eq_of_perm`: two canonical lists with the same elements are equal
- `Ranking.Canon.adjacent`: what two neighbours of a canonical list have to do with each other
- `Ranking.Canon.filter`: deleting a set closed under "is blocked by" keeps the order
- `Ranking.Canon.insert`: inserting at an `InsertPoint` keeps the order
-/

namespace Bgpd.Lib

universe u v

/-- The data by which elements are ranked. -/
structure Ranking (α : Type u) (L : Type v) (G : Type v) where
  /-- Compared first; smaller is better. -/
  level : α → L
  /-- `med` is compared only between members of one group. -/
  group : α → G
  /-- Smaller blocks larger inside a group. -/
  med : α → ℕ
  /-- Decides between elements of one level; smaller is better. -/
  key : α → L

namespace Ranking

variable {α : Type u} {L G : Type v} (r : Ranking α L G)

/-! ## Blocking -/

/-- `z` has to stand before `y`, whatever their keys are. -/
def Blocks (z y : α) : Prop :=
  r.level z = r.level y ∧ r.group z = r.group y ∧ r.med z < r.med y

instance [DecidableEq L] [DecidableEq G] (z y : α) : Decidable (r.Blocks z y) :=
  inferInstanceAs (Decidable (_ ∧ _ ∧ _))

theorem blocks_irrefl (x : α) : ¬ r.Blocks x x := fun h => lt_irrefl _ h.2.2

theorem Blocks.trans {r : Ranking α L G} {x y z : α} (h₁ : r.Blocks x y) (h₂ : r.Blocks y z) :
    r.Blocks x z :=
  ⟨h₁.1.trans h₂.1, h₁.2.1.trans h₂.2.1, h₁.2.2.trans h₂.2.2⟩

/-! ## Canonical lists -/

variable [LinearOrder L]

/-- `x` may be listed before `y` when `S` are the elements not yet listed. -/
def Before (S : List α) (x y : α) : Prop :=
  r.level x < r.level y ∨
    (r.level x = r.level y ∧ ¬ r.Blocks y x ∧ (r.key x < r.key y ∨ ∃ z ∈ S, r.Blocks z y))

/-- The greedy order: every element may be listed before all later ones. -/
def Canon : List α → Prop
  | [] => True
  | x :: t => (∀ y ∈ t, r.Before (x :: t) x y) ∧ Canon t

@[simp] theorem canon_nil : r.Canon ([] : List α) := trivial

theorem canon_cons {x : α} {t : List α} :
    r.Canon (x :: t) ↔ (∀ y ∈ t, r.Before (x :: t) x y) ∧ r.Canon t := Iff.rfl

variable {r}

theorem Before.mono {S T : List α} {x y : α} (h : r.Before S x y) (hST : ∀ z ∈ S, z ∈ T) :
    r.Before T x y := by
  rcases h with h | ⟨hl, hb, hk | ⟨z, hz, hzy⟩⟩
  · exact Or.inl h
  · exact Or.inr ⟨hl, hb, Or.inl hk⟩
  · exact Or.inr ⟨hl, hb, Or.inr ⟨z, hST z hz, hzy⟩⟩

theorem Before.level_le {S : List α} {x y : α} (h : r.Before S x y) : r.level x ≤ r.level y := by
  rcases h with h | ⟨hl, _⟩
  · exact h.le
  · exact hl.le

theorem Before.not_blocks {S : List α} {x y : α} (h : r.Before S x y) : ¬ r.Blocks y x := by
  rcases h with h | ⟨_, hb, _⟩
  · exact fun hyx => absurd hyx.1 h.ne'
  · exact hb

/-- In a canonical list no later element blocks an earlier one, and levels do not fall. -/
theorem Canon.append_iff {l₁ l₂ : List α} (h : r.Canon (l₁ ++ l₂)) :
    r.Canon l₂ ∧ ∀ x ∈ l₁, ∀ y ∈ l₂, r.level x ≤ r.level y ∧ ¬ r.Blocks y x := by
  induction l₁ with
  | nil => exact ⟨h, fun x hx => absurd hx (by simp)⟩
  | cons a t ih =>
    obtain ⟨ha, ht⟩ := h
    obtain ⟨hc, hxy⟩ := ih ht
    refine ⟨hc, fun x hx y hy => ?_⟩
    rcases List.mem_cons.mp hx with rfl | hx
    · have := ha y (List.mem_append.mpr (Or.inr hy))
      exact ⟨this.level_le, this.not_blocks⟩
    · exact hxy x hx y hy

theorem Canon.pairwise {l : List α} (h : r.Canon l) :
    l.Pairwise (fun x y => r.level x ≤ r.level y ∧ ¬ r.Blocks y x) := by
  induction l with
  | nil => exact List.Pairwise.nil
  | cons x t ih =>
    refine List.pairwise_cons.mpr ⟨fun y hy => ?_, ih h.2⟩
    exact ⟨(h.1 y hy).level_le, (h.1 y hy).not_blocks⟩

/-- Two neighbours in a canonical list: the level decides, the first one blocks the second, or
    the key decides. -/
theorem Canon.adjacent {A B : List α} {x y : α} (h : r.Canon (A ++ x :: y :: B)) :
    r.level x < r.level y ∨ r.Blocks x y ∨
      (r.level x = r.level y ∧ ¬ r.Blocks y x ∧ r.key x < r.key y) := by
  obtain ⟨hx, hy, -⟩ := h.append_iff.1
  rcases hx y (List.mem_cons_self ..) with hl | ⟨hl, hb, hk | ⟨z, hz, hzy⟩⟩
  · exact Or.inl hl
  · exact Or.inr (Or.inr ⟨hl, hb, hk⟩)
  · -- nothing behind `y` blocks it
    rcases List.mem_cons.mp hz with rfl | hz
    · exact Or.inr (Or.inl hzy)
    · rcases List.mem_cons.mp hz with rfl | hz
      · exact absurd hzy (r.blocks_irrefl z)
      · exact absurd hzy (hy z hz).not_blocks

/-- **Uniqueness**: the greedy order depends on the set of elements only. -/
theorem Canon.eq_of_perm {l₁ l₂ : List α} (h₁ : r.Canon l₁) (h₂ : r.Canon l₂)
    (hp : l₁.Perm l₂) : l₁ = l₂ := by
  induction l₁ generalizing l₂ with
  | nil => exact (List.nil_perm.mp hp).symm
  | cons x t₁ ih =>
    cases l₂ with
    | nil => exact absurd hp.symm (by simp)
    | cons y t₂ =>
      by_cases hxy : x = y
      · subst hxy
        rw [ih h₁.2 h₂.2 (List.perm_cons x |>.mp hp)]
      · -- both heads are unblocked, so each would have the better key
        have hy : y ∈ t₁ := (List.mem_cons.mp (hp.mem_iff.mpr (List.mem_cons_self ..))).resolve_left
          (fun h => hxy h.symm)
        have hx : x ∈ t₂ := (List.mem_cons.mp (hp.mem_iff.mp (List.mem_cons_self ..))).resolve_left
          hxy
        have hlt : ∀ {a b : α} {s t : List α}, r.Before (a :: s) a b → r.Before (b :: t) b a →
            (∀ z ∈ t, r.Before (b :: t) b z) → (∀ z, z ∈ a :: s ↔ z ∈ b :: t) →
            r.level a ≤ r.level b → r.level b ≤ r.level a → r.key a < r.key b := by
          intro a b s t hab _ hb hmem hle hge
          rcases hab with hab | ⟨_, _, hk | ⟨z, hz, hzb⟩⟩
          · exact absurd hab hge.not_gt
          · exact hk
          · rcases List.mem_cons.mp ((hmem z).mp hz) with rfl | hz
            · exact absurd hzb (r.blocks_irrefl z)
            · exact absurd hzb (hb z hz).not_blocks
        have hxy' := h₁.1 y hy
        have hyx' := h₂.1 x hx
        have hmem : ∀ z, z ∈ x :: t₁ ↔ z ∈ y :: t₂ := fun z => hp.mem_iff
        have k₁ := hlt hxy' hyx' h₂.1 hmem hxy'.level_le hyx'.level_le
        have k₂ := hlt hyx' hxy' h₁.1 (fun z => (hmem z).symm) hyx'.level_le hxy'.level_le
        exact absurd k₁ k₂.not_gt

/-- Deleting elements keeps the order as long as whatever a deleted element blocks is
    deleted with it. -/
theorem Canon.filter {l : List α} (P : α → Bool) (h : r.Canon l)
    (hP : ∀ z ∈ l, ∀ y ∈ l, r.Blocks z y → P y = true → P z = true) : r.Canon (l.filter P) := by
  induction l with
  | nil => simp
  | cons x t ih =>
    have iht := ih h.2 (fun z hz y hy => hP z (List.mem_cons_of_mem _ hz) y
      (List.mem_cons_of_mem _ hy))
    by_cases hx : P x = true
    · rw [List.filter_cons_of_pos hx]
      refine ⟨fun y hy => ?_, iht⟩
      obtain ⟨hyt, hyP⟩ := List.mem_filter.mp hy
      rcases h.1 y hyt with hlt | ⟨hl, hb, hk | ⟨z, hz, hzy⟩⟩
      · exact Or.inl hlt
      · exact Or.inr ⟨hl, hb, Or.inl hk⟩
      · have hzP := hP z hz y (List.mem_cons_of_mem _ hyt) hzy hyP
        refine Or.inr ⟨hl, hb, Or.inr ⟨z, ?_, hzy⟩⟩
        rw [← List.filter_cons_of_pos hx]
        exact List.mem_filter.mpr ⟨hz, hzP⟩
    · rw [List.filter_cons_of_neg hx]
      exact iht

/-- An element that blocks nothing can be taken out. -/
theorem Canon.remove {o : α} {A B : List α} (h : r.Canon (A ++ o :: B))
    (ho : ∀ y ∈ A ++ B, ¬ r.Blocks o y) : r.Canon (A ++ B) := by
  induction A with
  | nil => exact h.2
  | cons x A ih =>
    rw [List.cons_append, canon_cons] at h ⊢
    refine ⟨fun y hy => ?_, ih h.2 fun y hy => ho y (List.mem_cons_of_mem _ hy)⟩
    have hy' : y ∈ A ++ o :: B := by
      simp only [List.mem_append, List.mem_cons] at hy ⊢
      tauto
    rcases h.1 y hy' with hlt | ⟨hl, hb, hk | ⟨z, hz, hzy⟩⟩
    · exact Or.inl hlt
    · exact Or.inr ⟨hl, hb, Or.inl hk⟩
    · refine Or.inr ⟨hl, hb, Or.inr ⟨z, ?_, hzy⟩⟩
      have hzo : z ≠ o := fun he => ho y (List.mem_cons_of_mem _ hy) (he ▸ hzy)
      simp only [List.mem_cons, List.mem_append] at hz ⊢
      tauto

/-- Taking out an element together with everything it blocks keeps the order. -/
theorem Canon.remove_blocked [DecidableEq L] [DecidableEq G] {o : α} {A B : List α}
    (h : r.Canon (A ++ o :: B)) : r.Canon ((A ++ B).filter fun x => !decide (r.Blocks o x)) := by
  have hfil := h.filter (fun x => !decide (r.Blocks o x)) fun z _ y _ hzy hy => by
    simp only [Bool.not_eq_eq_eq_not, Bool.not_true, decide_eq_false_iff_not] at hy ⊢
    exact fun hoz => hy (hoz.trans hzy)
  rw [List.filter_append, List.filter_cons_of_pos (by simp [r.blocks_irrefl])] at hfil
  rw [List.filter_append]
  refine hfil.remove fun y hy => ?_
  rw [← List.filter_append] at hy
  simpa using (List.mem_filter.mp hy).2

/-! ## Insertion -/

/-- Every element of the list may be listed before `n`, given the elements after it. -/
def AllBefore (r : Ranking α L G) (n : α) : List α → Prop
  | [] => True
  | x :: A => (r.level x < r.level n ∨
      (r.level x = r.level n ∧ (r.key x < r.key n ∨ ∃ z ∈ x :: A, r.Blocks z n))) ∧ AllBefore r n A

theorem AllBefore.append {n : α} {A B : List α} (hA : AllBefore r n A) (hB : AllBefore r n B) :
    AllBefore r n (A ++ B) := by
  induction A with
  | nil => exact hB
  | cons x A ih =>
    refine ⟨?_, ih hA.2⟩
    rcases hA.1 with h | ⟨hl, hk | ⟨z, hz, hzn⟩⟩
    · exact Or.inl h
    · exact Or.inr ⟨hl, Or.inl hk⟩
    · refine Or.inr ⟨hl, Or.inr ⟨z, ?_, hzn⟩⟩
      exact List.mem_append_left B hz

/-- A blocker of `n` at the end of the list accounts for everything at its level. -/
theorem AllBefore.append_blocker {n z : α} {A : List α} (hz : r.Blocks z n)
    (hA : ∀ x ∈ A, r.level x ≤ r.level n) : AllBefore r n (A ++ [z]) := by
  induction A with
  | nil => exact ⟨Or.inr ⟨hz.1, Or.inr ⟨z, by simp, hz⟩⟩, trivial⟩
  | cons x A ih =>
    refine ⟨?_, ih (fun y hy => hA y (List.mem_cons_of_mem _ hy))⟩
    rcases (hA x (List.mem_cons_self ..)).lt_or_eq with h | h
    · exact Or.inl h
    · exact Or.inr ⟨h, Or.inr ⟨z, by simp, hz⟩⟩

/-- `A ++ B` has its gap for `n` between `A` and `B`. -/
structure InsertPoint (r : Ranking α L G) (n : α) (A B : List α) : Prop where
  /-- Nothing listed has to wait for `n`. -/
  unblocked : ∀ y ∈ A ++ B, ¬ r.Blocks n y
  before : AllBefore r n A
  /-- `n` does not have to wait for anything behind the gap. -/
  free : ∀ y ∈ B, ¬ r.Blocks y n
  /-- `n` is better than the element right behind the gap. -/
  head : ∀ y B', B = y :: B' →
    r.level n < r.level y ∨ (r.level n = r.level y ∧ r.key n < r.key y)

/-- An element that stands before the first unblocked one stands before all. -/
theorem InsertPoint.before_all {n : α} {B : List α} (hB : r.Canon B)
    (hfree : ∀ y ∈ B, ¬ r.Blocks y n)
    (hhead : ∀ y B', B = y :: B' →
      r.level n < r.level y ∨ (r.level n = r.level y ∧ r.key n < r.key y)) :
    ∀ y ∈ B, r.Before (n :: B) n y := by
  cases B with
  | nil => exact fun y hy => absurd hy (by simp)
  | cons y₀ B' =>
    intro y hy
    have hy₀ : r.Before (n :: y₀ :: B') n y₀ := by
      rcases hhead y₀ B' rfl with h | ⟨hl, hk⟩
      · exact Or.inl h
      · exact Or.inr ⟨hl, hfree y₀ (List.mem_cons_self ..), Or.inl hk⟩
    rcases List.mem_cons.mp hy with rfl | hy'
    · exact hy₀
    · have hby := (hB.1 y hy').mono (T := n :: y₀ :: B') (fun z hz => List.mem_cons_of_mem _ hz)
      have hle := hby.level_le
      rcases hhead y₀ B' rfl with h | ⟨hl, hk⟩
      · exact Or.inl (h.trans_le hle)
      · rcases hby with h | ⟨hl', _, hk' | hz⟩
        · exact Or.inl (hl ▸ h)
        · exact Or.inr ⟨hl.trans hl', hfree y hy, Or.inl (hk.trans hk')⟩
        · exact Or.inr ⟨hl.trans hl', hfree y hy, Or.inr hz⟩

/-- Inserting at the gap keeps the greedy order. -/
theorem Canon.insert {n : α} {A B : List α} (h : r.Canon (A ++ B)) (hp : InsertPoint r n A B) :
    r.Canon (A ++ n :: B) := by
  induction A with
  | nil => exact ⟨InsertPoint.before_all h hp.free hp.head, h⟩
  | cons x A ih =>
    have hsub : ∀ z ∈ x :: (A ++ B), z ∈ x :: (A ++ n :: B) := by
      intro z hz
      simp only [List.mem_cons, List.mem_append] at hz ⊢
      tauto
    refine ⟨fun y hy => ?_, ih h.2 ⟨?_, hp.before.2, hp.free, hp.head⟩⟩
    · by_cases hyn : y = n
      · subst hyn
        rcases hp.before.1 with hlt | ⟨hl, hk | ⟨z, hz, hzn⟩⟩
        · exact Or.inl hlt
        · exact Or.inr ⟨hl, hp.unblocked x (by simp), Or.inl hk⟩
        · refine Or.inr ⟨hl, hp.unblocked x (by simp), Or.inr ⟨z, ?_, hzn⟩⟩
          exact List.mem_append_left (y :: B) hz
      · have hyAB : y ∈ A ++ B := by
          rcases List.mem_append.mp hy with hyA | hyB
          · exact List.mem_append_left B hyA
          · exact List.mem_append_right A ((List.mem_cons.mp hyB).resolve_left hyn)
        exact (h.1 y hyAB).mono hsub
    · exact fun y hy => hp.unblocked y (List.mem_cons_of_mem _ hy)

end Ranking

end Bgpd.Lib
