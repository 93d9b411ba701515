import Mathlib.Data.Int.Order.Basic
import Mathlib.Data.List.Basic
import Mathlib.Order.Basic
import Mathlib.Tactic.SplitIfs

/-!
# Binary Search

The search of `bsearch(3)` in a list that is sorted in the order of the comparison, and the moves of
elements in a piece of memory that keep such a list sorted.

## Main results

- `bsearch_eq_some_iff`: the search finds what compares equal, and nothing else
- `take_memmove_insert`, `take_memmove_erase`: making room for an element and closing the gap
-/

namespace Bgpd.Lib

variable {α : Type*}

/-! ## Search -/

/-- The search among `lim` elements from `base` on. `cmp` compares the key with an element. -/
def bsearchFrom (cmp : α → ℤ) (xs : List α) (base lim : ℕ) : Option ℕ :=
  if _h : lim = 0 then none
  else
    match xs[base + lim / 2]? with
    | none => none
    | some x =>
      if cmp x = 0 then some (base + lim / 2)
      -- the key is larger: move right
      else if 0 < cmp x then bsearchFrom cmp xs (base + lim / 2 + 1) ((lim - 1) / 2)
      -- else move left
      else bsearchFrom cmp xs base (lim / 2)
termination_by lim

/-- `bsearch` -/
def bsearch (cmp : α → ℤ) (xs : List α) : Option ℕ := bsearchFrom cmp xs 0 xs.length

/-- Behind an element that is not below the key all elements are above it. -/
def Ascending (cmp : α → ℤ) (xs : List α) : Prop := xs.Pairwise fun x y => cmp x ≤ 0 → cmp y < 0

variable {cmp : α → ℤ} {xs : List α} {base lim i j n l : ℕ} {x y c : α}

theorem Ascending.neg (h : Ascending cmp xs) (hi : xs[i]? = some x) (hj : xs[j]? = some y)
    (hij : i < j) (hx : cmp x ≤ 0) : cmp y < 0 := by
  obtain ⟨hi', rfl⟩ := List.getElem?_eq_some_iff.mp hi
  obtain ⟨hj', rfl⟩ := List.getElem?_eq_some_iff.mp hj
  exact List.pairwise_iff_getElem.mp h i j hi' hj' hij hx

/-- What the search returns compares equal. -/
theorem bsearchFrom_sound (h : bsearchFrom cmp xs base lim = some i) :
    ∃ x, xs[i]? = some x ∧ cmp x = 0 := by
  induction base, lim using bsearchFrom.induct cmp xs with
  | case1 base => simp [bsearchFrom] at h
  | case2 base lim hlim hx => simp [bsearchFrom, hlim, hx] at h
  | case3 base lim hlim x hx hzero =>
    simp only [bsearchFrom, hlim, hx, hzero, ↓reduceDIte, ↓reduceIte, Option.some.injEq] at h
    subst h
    exact ⟨x, hx, hzero⟩
  | case4 base lim hlim x hx hzero hpos ih =>
    rw [bsearchFrom] at h
    simp only [hlim, hx, hzero, hpos, ↓reduceDIte, ↓reduceIte] at h
    exact ih h
  | case5 base lim hlim x hx hzero hpos ih =>
    rw [bsearchFrom] at h
    simp only [hlim, hx, hzero, hpos, ↓reduceDIte, ↓reduceIte] at h
    exact ih h

/-- An element that compares equal is found: it stays between the bounds. -/
theorem bsearchFrom_complete (hasc : Ascending cmp xs) (hi : xs[i]? = some x) (hx : cmp x = 0)
    (hbase : base ≤ i) (hlim : i < base + lim) (hlen : base + lim ≤ xs.length) :
    bsearchFrom cmp xs base lim = some i := by
  induction base, lim using bsearchFrom.induct cmp xs with
  | case1 base => omega
  | case2 base lim hne hmid =>
    have := List.getElem?_eq_none_iff.mp hmid
    omega
  | case3 base lim hne y hy hzero =>
    simp only [bsearchFrom, hne, hy, hzero, ↓reduceDIte, ↓reduceIte, Option.some.injEq]
    -- no two elements compare equal
    rcases Nat.lt_trichotomy (base + lim / 2) i with hlt | heq | hgt
    · have := hasc.neg hy hi hlt hzero.le
      omega
    · exact heq
    · have := hasc.neg hi hy hgt hx.le
      omega
  | case4 base lim hne y hy hzero hpos ih =>
    -- the elements up to the middle are too small, so `i` is above
    have hmid : base + lim / 2 < i := by
      by_contra hle
      rcases Nat.lt_or_eq_of_le (Nat.le_of_not_lt hle) with hlt | heq
      · have := hasc.neg hi hy hlt hx.le
        omega
      · rw [heq, hy] at hi
        cases hi
        exact hzero hx
    rw [bsearchFrom]
    simp only [hne, hy, hzero, hpos, ↓reduceDIte, ↓reduceIte]
    exact ih (by omega) (by omega) (by omega)
  | case5 base lim hne y hy hzero hpos ih =>
    -- the elements from the middle on are too large, so `i` is below
    have hmid : i < base + lim / 2 := by
      by_contra hle
      rcases Nat.lt_or_eq_of_le (Nat.le_of_not_lt hle) with hlt | heq
      · have := hasc.neg hy hi hlt (Int.not_lt.mp hpos)
        omega
      · rw [← heq, hy] at hi
        cases hi
        exact hzero hx
    rw [bsearchFrom]
    simp only [hne, hy, hzero, hpos, ↓reduceDIte, ↓reduceIte]
    exact ih hbase hmid (by omega)

/-- In a sorted list the search finds what compares equal, and nothing else. -/
theorem bsearch_eq_some_iff (hasc : Ascending cmp xs) :
    bsearch cmp xs = some i ↔ ∃ x, xs[i]? = some x ∧ cmp x = 0 := by
  constructor
  · exact bsearchFrom_sound
  · rintro ⟨x, hi, hx⟩
    have hlt := (List.getElem?_eq_some_iff.mp hi).1
    exact bsearchFrom_complete hasc hi hx (Nat.zero_le i) (by omega) (by omega)

theorem bsearch_isSome_iff (hasc : Ascending cmp xs) :
    (bsearch cmp xs).isSome ↔ ∃ x ∈ xs, cmp x = 0 := by
  rw [Option.isSome_iff_exists]
  constructor
  · rintro ⟨i, hi⟩
    obtain ⟨x, hx, hzero⟩ := (bsearch_eq_some_iff hasc).mp hi
    exact ⟨x, List.mem_of_getElem? hx, hzero⟩
  · rintro ⟨x, hx, hzero⟩
    obtain ⟨i, hi⟩ := List.getElem?_of_mem hx
    exact ⟨i, (bsearch_eq_some_iff hasc).mpr ⟨x, hi, hzero⟩⟩

/-! ## Moves in memory -/

/-- `memmove`: `n` elements from `src` on go to `dst`. -/
def memmove (xs : List α) (dst src n : ℕ) : List α :=
  xs.take dst ++ (xs.drop src).take n ++ xs.drop (dst + n)

theorem length_memmove (hdst : dst + n ≤ xs.length) (hsrc : src + n ≤ xs.length) :
    (memmove xs dst src n).length = xs.length := by
  simp only [memmove, List.length_append, List.length_take, List.length_drop]
  omega

/-- The elements from slot `l` on go up by one slot, and `c` is put into the slot. -/
theorem take_memmove_insert (hl : l ≤ n) (hn : n < xs.length) :
    ((memmove xs (l + 1) l (n - l)).set l c).take (n + 1) =
      (xs.take n).take l ++ c :: (xs.take n).drop l := by
  have hset : (memmove xs (l + 1) l (n - l)).set l c =
      xs.take l ++ c :: ((xs.drop l).take (n - l) ++ xs.drop (n + 1)) := by
    unfold memmove
    rw [List.take_add_one, List.getElem?_eq_getElem (by omega), show l + 1 + (n - l) =
      n + 1 by omega]
    simp only [Option.toList_some, List.append_assoc, List.singleton_append]
    rw [List.set_append_right _ _ (List.length_take_le l xs), List.length_take,
      Nat.min_eq_left (by omega), Nat.sub_self, List.cons_append, List.set_cons_zero]
  have hlen : (xs.take l ++ c :: (xs.drop l).take (n - l)).length = n + 1 := by
    simp only [List.length_append, List.length_cons, List.length_take, List.length_drop]
    omega
  rw [hset, List.take_take, Nat.min_eq_left hl, List.drop_take, ← List.cons_append,
    ← List.append_assoc, List.take_append_of_le_length (Nat.le_of_eq hlen.symm),
    List.take_of_length_le (Nat.le_of_eq hlen)]

/-- The elements behind slot `l` go down by one slot. -/
theorem take_memmove_erase (hl : l < n) (hn : n ≤ xs.length) :
    (memmove xs l (l + 1) (n - l - 1)).take (n - 1) = (xs.take n).eraseIdx l := by
  unfold memmove
  rw [List.take_append_of_le_length (by simp; omega), List.take_of_length_le (by simp; omega),
    List.eraseIdx_eq_take_drop_succ, List.take_take, Nat.min_eq_left (Nat.le_of_lt hl),
      List.drop_take,
    show n - (l + 1) = n - l - 1 by omega]

end Bgpd.Lib
