import Mathlib.Order.Basic
import Mathlib.Tactic.Ring

/-!
# Orders on Prefixes

Comparators that are built from others. A value comes with a length and only the part that both
values have is compared; if it is the same the longer value comes first. Lists are compared the
same way.

## Main results

- `thenOn_trans`: a comparison that depends on the value compared first
- `lexEnd`: lists, with the longer one of two lists with a common start first
- `gradedCmp_trans`: values with a length
-/

namespace Bgpd.Lib

open Std

variable {α β : Type}

/-! ## Comparisons one after the other -/

/-- Compare by `f` first and by `g` if there is no difference. `g` may depend on the value. -/
def thenOn (f : α → ℕ) (g : ℕ → α → α → Ordering) (a b : α) : Ordering :=
  (compare (f a) (f b)).then (g (f a) a b)

/-- Comparing by a number first keeps an order transitive. -/
theorem thenOn_trans {f : α → ℕ} {g : ℕ → α → α → Ordering} (hg : ∀ n, TransCmp (g n)) :
    TransCmp (thenOn f g) where
  eq_swap := by
    intro a b
    have hswap : compare (f a) (f b) = (compare (f b) (f a)).swap := (Nat.compare_swap _ _).symm
    rw [thenOn, thenOn, Ordering.swap_then, hswap]
    cases h : compare (f b) (f a) with
    | lt => rfl
    | gt => rfl
    | eq =>
      rw [Nat.compare_eq_eq.1 h]
      exact (hg _).eq_swap
  isLE_trans := by
    intro a b c hab hbc
    unfold thenOn at hab hbc ⊢
    rw [Ordering.isLE_then_iff_and, Nat.isLE_compare] at hab hbc ⊢
    refine ⟨hab.1.trans hbc.1, ?_⟩
    rcases hab.2 with hlt | hle
    · exact .inl (Nat.compare_eq_lt.2 ((Nat.compare_eq_lt.1 hlt).trans_le hbc.1))
    rcases hbc.2 with hlt | hle'
    · exact .inl (Nat.compare_eq_lt.2 (hab.1.trans_lt (Nat.compare_eq_lt.1 hlt)))
    rcases hab.1.lt_or_eq with hlt | heq
    · exact .inl (Nat.compare_eq_lt.2 (hlt.trans_le hbc.1))
    · rw [← heq] at hle'
      exact .inr ((hg _).isLE_trans hle hle')

theorem transCmp_comap (f : α → β) {cmp : β → β → Ordering} (h : TransCmp cmp) :
    TransCmp fun a b => cmp (f a) (f b) where
  eq_swap := h.eq_swap
  isLE_trans := h.isLE_trans

/-! ## Lists -/

/-- Lexicographic, but the end of a list is greater than anything else. -/
def lexEnd (cmp : α → α → Ordering) (as bs : List α) : Ordering :=
  List.compareLex (fun a b => cmp b a) bs as

variable {cmp : α → α → Ordering} {as bs : List α} {a b : α}

theorem lexEnd_trans [TransCmp cmp] : TransCmp (lexEnd cmp) :=
  inferInstanceAs (TransCmp fun as bs => List.compareLex (fun a b => cmp b a) bs as)

@[simp] theorem lexEnd_nil_nil : lexEnd cmp [] [] = .eq := rfl

@[simp] theorem lexEnd_nil_cons : lexEnd cmp [] (b :: bs) = .gt := rfl

@[simp] theorem lexEnd_cons_nil : lexEnd cmp (a :: as) [] = .lt := rfl

@[simp] theorem lexEnd_cons_cons :
    lexEnd cmp (a :: as) (b :: bs) = (cmp a b).then (lexEnd cmp as bs) := by
  unfold lexEnd
  rw [List.compareLex_cons_cons]

/-- The lists have the same values as far as the comparator can tell. -/
theorem lexEnd_eq_iff {key : α → β}
    (hcmp : ∀ a ∈ as, ∀ b ∈ bs, cmp a b = .eq ↔ key a = key b) :
    lexEnd cmp as bs = .eq ↔ as.map key = bs.map key := by
  induction as generalizing bs with
  | nil => cases bs <;> simp
  | cons a as ih =>
    cases bs with
    | nil => simp
    | cons b bs =>
      have htail := ih fun a ha b hb =>
        hcmp a (List.mem_cons_of_mem _ ha) b (List.mem_cons_of_mem _ hb)
      simp [Ordering.then_eq_eq, hcmp, htail]

/-- Lists with the same start are compared by what is behind it. -/
theorem lexEnd_append {key : α → β} {xs ys : List α}
    (hcmp : ∀ a ∈ as, ∀ b ∈ bs, cmp a b = .eq ↔ key a = key b) (h : as.map key = bs.map key) :
    lexEnd cmp (as ++ xs) (bs ++ ys) = lexEnd cmp xs ys := by
  induction as generalizing bs with
  | nil =>
    obtain rfl : bs = [] := List.map_eq_nil_iff.mp h.symm
    rfl
  | cons a as ih =>
    cases bs with
    | nil => exact nomatch h
    | cons b bs =>
      obtain ⟨hhead, htail⟩ := List.cons_eq_cons.mp h
      have heq : cmp a b = .eq := (hcmp a List.mem_cons_self b List.mem_cons_self).mpr hhead
      rw [List.cons_append, List.cons_append, lexEnd_cons_cons, heq, Ordering.eq_then]
      exact ih (fun a ha b hb => hcmp a (List.mem_cons_of_mem _ ha) b (List.mem_cons_of_mem _ hb))
        htail

/-- The common part of the lists first, then the length. -/
theorem lexEnd_eq_take :
    lexEnd cmp as bs =
      (List.compareLex cmp (as.take (min as.length bs.length))
        (bs.take (min as.length bs.length))).then (compare bs.length as.length) := by
  induction as generalizing bs with
  | nil =>
    cases bs with
    | nil => rfl
    | cons b bs =>
      have hlen : compare (bs.length + 1) 0 = .gt := Nat.compare_eq_gt.2 (Nat.succ_pos _)
      simp [List.compareLex_nil_nil, hlen]
  | cons a as ih =>
    cases bs with
    | nil =>
      have hlen : compare 0 (as.length + 1) = .lt := Nat.compare_eq_lt.2 (Nat.succ_pos _)
      simp [List.compareLex_nil_nil, hlen]
    | cons b bs =>
      rw [lexEnd_cons_cons, ih]
      simp only [List.length_cons, Nat.add_min_add_right, List.take_succ_cons,
        List.compareLex_cons_cons, Ordering.then_assoc]
      congr 2
      simp [Nat.compare_eq_ite_lt]

/-! ## Values with a length -/

/-- Compare the parts that both values have, then the longer value comes first. -/
def gradedCmp (c : ℕ → α → α → Ordering) (x y : α × ℕ) : Ordering :=
  (c (min x.2 y.2) x.1 y.1).then (compare y.2 x.2)

section Graded

variable {c : ℕ → α → α → Ordering} (hc : ∀ k, TransCmp (c k))
  (hmono : ∀ {k m : ℕ} {a b : α}, k ≤ m → c k a b = .lt → c m a b = .lt)

include hc hmono

theorem isLE_of_le {k m : ℕ} {a b : α} (hk : k ≤ m) (h : (c m a b).isLE) : (c k a b).isLE := by
  have := hc k
  have := hc m
  by_contra hgt
  have hlt : c k b a = .lt := OrientedCmp.lt_of_not_isLE hgt
  have hlt' := hmono hk hlt
  exact OrientedCmp.not_lt_of_isLE h hlt'

/-- The graded comparison of two levels is a total preorder. -/
theorem gradedCmp_trans : TransCmp (gradedCmp c) where
  eq_swap := by
    intro x y
    unfold gradedCmp
    rw [Ordering.swap_then, ← (hc _).eq_swap, Nat.min_comm, Nat.compare_swap]
  isLE_trans := by
    intro x y z hxy hyz
    have := hc
    unfold gradedCmp at hxy hyz ⊢
    rw [Ordering.isLE_then_iff_and, Nat.isLE_compare] at hxy hyz ⊢
    by_cases hmid : min x.2 z.2 ≤ y.2
    · -- all three values have the part that is compared
      have hle₁ := isLE_of_le hc hmono (k := min x.2 z.2) (le_min (min_le_left _ _) hmid) hxy.1
      have hle₂ := isLE_of_le hc hmono (k := min x.2 z.2) (le_min hmid (min_le_right _ _)) hyz.1
      have hle := TransCmp.isLE_trans hle₁ hle₂
      refine ⟨hle, ?_⟩
      by_cases hlt : c (min x.2 z.2) x.1 z.1 = .lt
      · exact .inl hlt
      right
      by_contra hlen
      push Not at hlen
      -- `x` is the shortest, then all three are equal and have the same length
      rw [min_eq_left hlen.le] at *
      have hnot₁ : c x.2 x.1 y.1 ≠ .lt := fun h => hlt (TransCmp.lt_of_lt_of_isLE h hle₂)
      have hnot₂ : c x.2 y.1 z.1 ≠ .lt := fun h => hlt (TransCmp.lt_of_isLE_of_lt hle₁ h)
      rw [min_eq_left hmid] at hxy
      have hxylen := hxy.2.resolve_left hnot₁
      have heq : y.2 = x.2 := Nat.le_antisymm hxylen hmid
      rw [heq, min_eq_left hlen.le] at hyz
      have hyzlen := hyz.2.resolve_left hnot₂
      omega
    -- `y` is the shortest, and it decides both comparisons
    · push Not at hmid
      obtain ⟨hx, hz⟩ := lt_min_iff.1 hmid
      rw [min_eq_right hx.le] at hxy
      rw [min_eq_left hz.le] at hyz
      have hlt : c y.2 y.1 z.1 = .lt := hyz.2.resolve_right (by omega)
      have hlt' := hmono hmid.le (TransCmp.lt_of_isLE_of_lt hxy.1 hlt)
      exact ⟨by rw [hlt']; rfl, .inl hlt'⟩

end Graded

end Bgpd.Lib
