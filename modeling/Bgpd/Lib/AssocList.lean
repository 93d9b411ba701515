import Mathlib.Data.List.Lookmap
import Mathlib.Data.List.Sort
import Mathlib.Order.Basic

/-!
# Association Lists

A finite map kept as a list of pairs in which no key occurs twice. What is in the list and
what `List.lookup` finds are then the same, so that changes of the list can be described as
changes of a function. If the keys increase, the function determines the list.

## Main results

- `perm_cons_filter_ne`: an element is apart from those with other keys
- `mem_iff_lookup`, `lookup_perm`: membership is lookup
- `lookup_middle`: what a pair put into the list changes
- `KeysSorted.ext`: two sorted lists with the same lookup function are equal
-/

namespace Bgpd.Lib

universe u v

section Keys

variable {α : Type u} {κ : Type v} [DecidableEq κ] {f : α → κ} {l : List α} {a : α}

/-- An element and those with other keys. -/
theorem perm_cons_filter_ne (hnd : (l.map f).Nodup) (ha : a ∈ l) :
    l.Perm (a :: l.filter fun x => f x ≠ f a) := by
  induction l with
  | nil => cases ha
  | cons x l ih =>
    obtain ⟨hx, hnd⟩ := List.nodup_cons.mp hnd
    rcases List.mem_cons.mp ha with rfl | ha
    · have hall : (l.filter fun x => f x ≠ f a) = l :=
        List.filter_eq_self.mpr fun y hy => decide_eq_true fun hkey =>
          hx (List.mem_map.mpr ⟨y, hy, hkey⟩)
      rw [List.filter_cons_of_neg (by simp), hall]
    · have hne : f x ≠ f a := fun hkey => hx (List.mem_map.mpr ⟨a, ha, hkey.symm⟩)
      rw [List.filter_cons_of_pos (by simpa using hne)]
      exact ((ih hnd ha).cons x).trans (List.Perm.swap _ _ _)

end Keys

section Lookup

variable {κ : Type u} {ν : Type v} [BEq κ] [LawfulBEq κ]

theorem lookup_eq_none {k : κ} {l : List (κ × ν)} (h : ∀ x ∈ l, x.1 ≠ k) : l.lookup k = none := by
  rw [List.lookup_eq_none_iff]
  intro x hx
  simpa using Ne.symm (h x hx)

theorem ne_of_lookup_eq_none {k : κ} {l : List (κ × ν)} (h : l.lookup k = none) :
    ∀ x ∈ l, x.1 ≠ k := by
  rintro x hx rfl
  simpa using List.lookup_eq_none_iff.mp h x hx

theorem mem_of_lookup {k : κ} {v : ν} {l : List (κ × ν)} (h : l.lookup k = some v) :
    (k, v) ∈ l := by
  obtain ⟨a, b, rfl, _⟩ := List.lookup_eq_some_iff.mp h
  simp

variable [DecidableEq κ]

/-- A pair put between `l` and `r`, with a key that `l` does not have. -/
theorem lookup_middle {k k' : κ} {v : ν} {l r : List (κ × ν)} (h : ∀ x ∈ l, x.1 ≠ k) :
    (l ++ (k, v) :: r).lookup k' = if k' = k then some v else (l ++ r).lookup k' := by
  induction l with
  | nil =>
    by_cases hk : k' = k
    · simp [hk]
    · have : (k' == k) = false := by simpa using hk
      simp [hk, List.lookup_cons, this]
  | cons x l ih =>
    obtain ⟨k₁, v₁⟩ := x
    have h₁ : k₁ ≠ k := h _ (List.mem_cons_self ..)
    specialize ih fun y hy => h y (List.mem_cons_of_mem _ hy)
    rw [List.cons_append, List.cons_append, List.lookup_cons, List.lookup_cons]
    by_cases hk : k' = k₁
    · subst hk
      simp [h₁]
    · have : (k' == k₁) = false := by simpa using hk
      rw [this]
      exact ih

/-- Each key has one value. -/
theorem mem_iff_lookup {l : List (κ × ν)} (h : (l.map (·.1)).Nodup) {k : κ} {v : ν} :
    (k, v) ∈ l ↔ l.lookup k = some v := by
  refine ⟨fun hmem => ?_, mem_of_lookup⟩
  obtain ⟨a, b, rfl⟩ := List.append_of_mem hmem
  rw [List.map_append, List.map_cons, List.nodup_middle, List.nodup_cons] at h
  rw [lookup_middle, if_pos rfl]
  intro x hx heq
  exact h.1 (List.mem_append_left _ (List.mem_map.mpr ⟨x, hx, heq⟩))

theorem lookup_perm {l l' : List (κ × ν)} (h : (l.map (·.1)).Nodup) (hp : l.Perm l') (k : κ) :
    l.lookup k = l'.lookup k := by
  have h' : (l'.map (·.1)).Nodup := (hp.map _).nodup_iff.mp h
  ext v
  rw [← mem_iff_lookup h, ← mem_iff_lookup h', hp.mem_iff]

/-- Take a key out. -/
theorem lookup_filter_ne {l : List (κ × ν)} {k k' : κ} :
    (l.filter (fun x => x.1 ≠ k)).lookup k' = if k' = k then none else l.lookup k' := by
  induction l with
  | nil => simp
  | cons x l ih =>
    obtain ⟨k₁, v₁⟩ := x
    rw [List.filter_cons]
    by_cases hk₁ : k₁ = k
    · subst hk₁
      simp only [ne_eq, not_true_eq_false, decide_false, Bool.false_eq_true, if_false, ih]
      split_ifs with hk
      · rfl
      · have : (k' == k₁) = false := by simpa using hk
        rw [List.lookup_cons, this]
    · simp only [ne_eq, hk₁, not_false_eq_true, decide_true, if_true, List.lookup_cons]
      by_cases hk : k' = k₁
      · subst hk
        simp [hk₁]
      · have : (k' == k₁) = false := by simpa using hk
        simpa only [this] using ih

end Lookup

section Sorted

variable {κ : Type u} {ν : Type v} [LinearOrder κ]

/-- The keys strictly increase. -/
def KeysSorted (l : List (κ × ν)) : Prop := l.Pairwise (fun a b => a.1 < b.1)

namespace KeysSorted

variable {l l' : List (κ × ν)}

theorem nodup (h : KeysSorted l) : (l.map (·.1)).Nodup :=
  List.pairwise_map.mpr (h.imp ne_of_lt)

/-- The lookup function determines the list. -/
theorem ext (h : KeysSorted l) (h' : KeysSorted l') (heq : ∀ k, l.lookup k = l'.lookup k) :
    l = l' := by
  have hmem : ∀ x, x ∈ l ↔ x ∈ l' := by
    rintro ⟨k, v⟩
    rw [mem_iff_lookup h.nodup, mem_iff_lookup h'.nodup, heq]
  have hperm : l.Perm l' :=
    (List.perm_ext_iff_of_nodup h.nodup.of_map h'.nodup.of_map).mpr hmem
  exact hperm.eq_of_pairwise (fun a b _ _ hab hba => absurd hab (lt_asymm hba)) h h'

end KeysSorted

end Sorted

end Bgpd.Lib
