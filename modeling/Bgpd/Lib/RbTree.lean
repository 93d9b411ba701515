import Mathlib.Data.List.Sort
import Mathlib.Order.Basic

/-!
# Ordered Trees

A red-black tree as the list of its elements in order. `cmp` is the comparison function of
`RB_GENERATE`; the tree holds at most one of the elements that it does not tell apart.

## Main results

- `ComparesBy`: a comparison by a key
- `rbInsert_eq_none_iff`, `rbInsert_perm`, `rbInsert_sorted`: what an insertion does
- `eq_of_sorted`: a tree is given by its elements
-/

namespace Bgpd.Lib

universe u v

section Tree

variable {α : Type u} (cmp : α → α → Int)

/-- `RB_FIND` -/
def rbFind (x : α) (l : List α) : Option α := l.find? fun y => cmp x y = 0

/-- `RB_INSERT`; `none` if there is such an element already. -/
def rbInsert (x : α) : List α → Option (List α)
  | [] => some [x]
  | y :: l =>
    if cmp x y < 0 then some (x :: y :: l)
    else if cmp x y = 0 then none
    else (rbInsert x l).map (y :: ·)

/-- `RB_REMOVE` of the element that `RB_FIND` finds. -/
def rbRemove (x : α) (l : List α) : List α := l.eraseP fun y => cmp x y = 0

end Tree

variable {α : Type u} {κ : Type v} [LinearOrder κ] {cmp : α → α → Int} {key : α → κ} {x : α}
  {l l' : List α}

/-- The comparison is that of a key. -/
structure ComparesBy (cmp : α → α → Int) (key : α → κ) : Prop where
  lt : ∀ a b, cmp a b < 0 ↔ key a < key b
  eq : ∀ a b, cmp a b = 0 ↔ key a = key b

/-- The elements are in order. -/
def TreeSorted (key : α → κ) (l : List α) : Prop := l.Pairwise fun a b => key a < key b

/-- Insertion fails exactly if the key is taken. -/
theorem rbInsert_eq_none_iff (hcmp : ComparesBy cmp key) (h : TreeSorted key l) :
    rbInsert cmp x l = none ↔ ∃ y ∈ l, key y = key x := by
  induction l with
  | nil => exact iff_of_false (fun h => nomatch h) (by simp)
  | cons y l ih =>
    obtain ⟨hy, hl⟩ := List.pairwise_cons.mp h
    rw [rbInsert]
    split_ifs with hlt heq
    · rw [hcmp.lt] at hlt
      refine iff_of_false (fun h => nomatch h) ?_
      rintro ⟨z, hz, hkey⟩
      rcases List.mem_cons.mp hz with rfl | hz
      · exact absurd hkey hlt.ne'
      · exact absurd hkey (hlt.trans (hy z hz)).ne'
    · rw [hcmp.eq] at heq
      exact iff_of_true rfl ⟨y, List.mem_cons_self, heq.symm⟩
    · rw [Option.map_eq_none_iff, ih hl]
      rw [hcmp.eq] at heq
      constructor
      · rintro ⟨z, hz, hkey⟩
        exact ⟨z, List.mem_cons_of_mem _ hz, hkey⟩
      · rintro ⟨z, hz, hkey⟩
        rcases List.mem_cons.mp hz with rfl | hz
        · exact absurd hkey.symm heq
        · exact ⟨z, hz, hkey⟩

theorem rbInsert_perm (h : rbInsert cmp x l = some l') : l'.Perm (x :: l) := by
  induction l generalizing l' with
  | nil =>
    obtain rfl := Option.some.inj h
    exact List.Perm.refl _
  | cons y l ih =>
    rw [rbInsert] at h
    split_ifs at h
    · obtain rfl := Option.some.inj h
      exact List.Perm.refl _
    · obtain ⟨l₁, hl₁, rfl⟩ := Option.map_eq_some_iff.mp h
      exact ((ih hl₁).cons y).trans (List.Perm.swap x y l)

/-- Insertion keeps the tree sorted. -/
theorem rbInsert_sorted (hcmp : ComparesBy cmp key) (hl : TreeSorted key l)
    (h : rbInsert cmp x l = some l') : TreeSorted key l' := by
  induction l generalizing l' with
  | nil =>
    obtain rfl := Option.some.inj h
    exact List.pairwise_singleton _ _
  | cons y l ih =>
    obtain ⟨hy, hl⟩ := List.pairwise_cons.mp hl
    rw [rbInsert] at h
    split_ifs at h with hlt heq
    · obtain rfl := Option.some.inj h
      rw [hcmp.lt] at hlt
      refine List.pairwise_cons.mpr ⟨fun z hz => ?_, List.pairwise_cons.mpr ⟨hy, hl⟩⟩
      rcases List.mem_cons.mp hz with rfl | hz
      · exact hlt
      · exact hlt.trans (hy z hz)
    · rw [hcmp.lt] at hlt
      rw [hcmp.eq] at heq
      obtain ⟨l₁, hl₁, rfl⟩ := Option.map_eq_some_iff.mp h
      refine List.pairwise_cons.mpr ⟨fun z hz => ?_, ih hl hl₁⟩
      rcases List.mem_cons.mp ((rbInsert_perm hl₁).mem_iff.mp hz) with rfl | hz
      · exact lt_of_le_of_ne (not_lt.mp hlt) (Ne.symm heq)
      · exact hy z hz

theorem eq_of_key_eq (h : TreeSorted key l) {y : α} (hx : x ∈ l) (hy : y ∈ l)
    (hkey : key x = key y) : x = y :=
  List.inj_on_of_nodup_map (List.pairwise_map.mpr (h.imp fun hlt => hlt.ne)) hx hy hkey

/-- Trees with the same elements are the same. -/
theorem eq_of_sorted {k : α → κ} (h : TreeSorted k l) (h' : TreeSorted k l')
    (hmem : ∀ x, x ∈ l ↔ x ∈ l') : l = l' := by
  have hnodup : ∀ l : List α, TreeSorted k l → l.Nodup := fun l hl =>
    hl.imp fun hlt heq => absurd (congrArg k heq) hlt.ne
  have hperm : l.Perm l' := (List.perm_ext_iff_of_nodup (hnodup l h) (hnodup l' h')).mpr hmem
  exact hperm.eq_of_pairwise (fun a b _ _ hab hba => absurd (hab.trans hba) (lt_irrefl _)) h h'

end Bgpd.Lib
