import Bgpd.Rpki.RoaEntries
import Bgpd.Rtr.Tables
import Mathlib.Data.Finset.Sort

/-!
# Merged Trees

`rtr_recalc` inserts the data of all sources into new trees. The tree of ROAs is the union of the
sources. The tree of ASPA sets has one set for each customer of a source, with the providers of all
its sets in ascending order.

## Main results

- `mem_mergedRoas`: the ROAs are those of the sources
- `mergedAspas_spec`, `MergedFrom.mem_iff`: customers and providers
- `mergedRoas_perm`, `mergedAspas_perm`: the order of the sources does not matter
-/

namespace Bgpd.Rtr

open Lib
open Rpki (AnyRoa roaCmp roaKey roaCmp_comparesBy roaKey_injective cmpField_lt cmpField_eq)

/-! ## ROAs -/

variable {rt roas roas' : List AnyRoa} {conf : Static} {sources sources' : List RpkiData}

/-- Duplicates are ignored. -/
theorem rtrRoaInsert_spec (h : TreeSorted roaKey rt) (roa : AnyRoa) :
    TreeSorted roaKey (rtrRoaInsert rt roa) ∧ ∀ r, r ∈ rtrRoaInsert rt roa ↔ r ∈ rt ∨ r = roa := by
  unfold rtrRoaInsert
  cases hins : rbInsert roaCmp roa rt with
  | none =>
    obtain ⟨y, hy, hkey⟩ := (rbInsert_eq_none_iff roaCmp_comparesBy h).mp hins
    obtain rfl := roaKey_injective hkey
    refine ⟨h, fun r => (or_iff_left_of_imp ?_).symm⟩
    rintro rfl
    exact hy
  | some rt' =>
    refine ⟨rbInsert_sorted roaCmp_comparesBy h hins, fun r => ?_⟩
    rw [Option.getD_some, (rbInsert_perm hins).mem_iff, List.mem_cons, or_comm]

theorem foldl_rtrRoaInsert (h : TreeSorted roaKey rt) (roas : List AnyRoa) :
    TreeSorted roaKey (roas.foldl rtrRoaInsert rt) ∧
      ∀ r, r ∈ roas.foldl rtrRoaInsert rt ↔ r ∈ rt ∨ r ∈ roas := by
  induction roas generalizing rt with
  | nil => exact ⟨h, fun r => (or_iff_left List.not_mem_nil).symm⟩
  | cons roa roas ih =>
    obtain ⟨hins, hmem⟩ := rtrRoaInsert_spec h roa
    obtain ⟨hsorted, hmem'⟩ := ih hins
    refine ⟨hsorted, fun r => ?_⟩
    rw [List.foldl_cons, hmem', hmem, List.mem_cons, or_assoc]

/-- The ROAs of all sources. -/
def allRoas (conf : Static) (sources : List RpkiData) : List AnyRoa :=
  conf.roa.map (·.1) ++ sources.flatMap RpkiData.roaSet

theorem mergedRoas_eq (conf : Static) (sources : List RpkiData) :
    mergedRoas conf sources = (allRoas conf sources).foldl rtrRoaInsert [] := by
  unfold mergedRoas allRoas
  rw [List.foldl_append, List.foldl_flatMap]

theorem mergedRoas_sorted (conf : Static) (sources : List RpkiData) :
    TreeSorted roaKey (mergedRoas conf sources) := by
  rw [mergedRoas_eq]
  exact (foldl_rtrRoaInsert List.Pairwise.nil _).1

/-- The tree of ROAs is the union of the sources. -/
theorem mem_mergedRoas {roa : AnyRoa} :
    roa ∈ mergedRoas conf sources ↔ roa ∈ allRoas conf sources := by
  rw [mergedRoas_eq, (foldl_rtrRoaInsert List.Pairwise.nil _).2]
  exact or_iff_right List.not_mem_nil

theorem mergedRoas_perm (h : sources.Perm sources') :
    mergedRoas conf sources = mergedRoas conf sources' := by
  apply eq_of_sorted (mergedRoas_sorted _ _) (mergedRoas_sorted _ _)
  intro roa
  rw [mem_mergedRoas, mem_mergedRoas]
  exact ((h.flatMap_right _).append_left _).mem_iff

/-! ## Providers -/

variable {tas : List ℕ} {asnum : ℕ}

theorem mem_aspaSetEntry {t : ℕ} : t ∈ aspaSetEntry tas asnum ↔ t ∈ tas ∨ t = asnum := by
  induction tas with
  | nil => simp [aspaSetEntry]
  | cons u tas ih =>
    rw [aspaSetEntry]
    split_ifs with hlt heq
    · rw [List.mem_cons, or_comm]
    · refine (or_iff_left_of_imp ?_).symm
      rintro rfl
      rw [heq]
      exact List.mem_cons_self
    · rw [List.mem_cons, ih, List.mem_cons, or_assoc]

/-- The insertion sort. -/
theorem aspaSetEntry_sorted (h : tas.Pairwise (· < ·)) (asnum : ℕ) :
    (aspaSetEntry tas asnum).Pairwise (· < ·) := by
  induction tas with
  | nil => exact List.pairwise_singleton _ _
  | cons u tas ih =>
    obtain ⟨hu, htas⟩ := List.pairwise_cons.mp h
    rw [aspaSetEntry]
    split_ifs with hlt heq
    · refine List.pairwise_cons.mpr ⟨fun t ht => ?_, h⟩
      rcases List.mem_cons.mp ht with rfl | ht
      · exact hlt
      · exact hlt.trans (hu t ht)
    · exact h
    · refine List.pairwise_cons.mpr ⟨fun t ht => ?_, ih htas⟩
      rcases mem_aspaSetEntry.mp ht with ht | rfl
      · exact hu t ht
      · omega

theorem foldl_aspaSetEntry (h : tas.Pairwise (· < ·)) (more : List ℕ) :
    (more.foldl aspaSetEntry tas).Pairwise (· < ·) ∧
      ∀ t, t ∈ more.foldl aspaSetEntry tas ↔ t ∈ tas ∨ t ∈ more := by
  induction more generalizing tas with
  | nil => exact ⟨h, fun t => (or_iff_left List.not_mem_nil).symm⟩
  | cons u more ih =>
    obtain ⟨hsorted, hmem⟩ := ih (aspaSetEntry_sorted h u)
    refine ⟨hsorted, fun t => ?_⟩
    rw [List.foldl_cons, hmem, mem_aspaSetEntry, List.mem_cons, or_assoc]

/-! ## ASPA sets -/

theorem aspaCmp_comparesBy : ComparesBy aspaCmp AspaSet.as where
  lt a b := (cmpField_lt a.as b.as 0).trans (by simp)
  eq a b := (cmpField_eq a.as b.as 0).trans (and_iff_left rfl)

variable {t : List AspaSet} {l l' : List AspaSet} {s x : AspaSet} {cas : ℕ}

/-- The tree has one set for each customer of the list, with all of its providers. -/
structure MergedFrom (l t : List AspaSet) : Prop where
  sorted : TreeSorted AspaSet.as t
  providers : ∀ x ∈ t, x.tas.Pairwise (· < ·)
  customers : ∀ cas, (∃ x ∈ t, x.as = cas) ↔ ∃ s ∈ l, s.as = cas
  tas : ∀ x ∈ t, ∀ p, p ∈ x.tas ↔ ∃ s ∈ l, s.as = x.as ∧ p ∈ s.tas

theorem MergedFrom.nil : MergedFrom [] [] where
  sorted := List.Pairwise.nil
  providers _ h := nomatch h
  customers cas := by simp
  tas _ h := nomatch h

theorem AspaSet.merge_tas (hx : x.tas.Pairwise (· < ·)) (s : AspaSet) :
    (s.merge x).tas.Pairwise (· < ·) ∧ ∀ p, p ∈ (s.merge x).tas ↔ p ∈ x.tas ∨ p ∈ s.tas :=
  foldl_aspaSetEntry hx s.tas

theorem exists_mem_snoc {α : Type} {P : α → Prop} {l : List α} {a : α} :
    (∃ b ∈ l ++ [a], P b) ↔ (∃ b ∈ l, P b) ∨ P a := by
  constructor
  · rintro ⟨b, hb, hP⟩
    rcases List.mem_append.mp hb with hb | hb
    · exact Or.inl ⟨b, hb, hP⟩
    · rw [List.mem_singleton.mp hb] at hP
      exact Or.inr hP
  · rintro (⟨b, hb, hP⟩ | hP)
    · exact ⟨b, List.mem_append_left _ hb, hP⟩
    · exact ⟨a, List.mem_append_right _ (List.mem_singleton_self a), hP⟩

/-- The customer has a set already. -/
theorem MergedFrom.merge (h : MergedFrom l t) {aspa : AspaSet} (hmem : aspa ∈ t)
    (has : aspa.as = s.as) :
    MergedFrom (l ++ [s]) (t.map fun x => if x = aspa then s.merge x else x) := by
  have hsame : ∀ x : AspaSet, (if x = aspa then s.merge x else x).as = x.as := by
    intro x
    split_ifs
    · rfl
    · rfl
  refine ⟨?_, ?_, fun cas => ?_, ?_⟩
  · refine List.pairwise_map.mpr (h.sorted.imp fun {a b} hlt => ?_)
    rwa [hsame, hsame]
  · intro y hy
    obtain ⟨x, hx, rfl⟩ := List.mem_map.mp hy
    split_ifs
    · exact (AspaSet.merge_tas (h.providers x hx) s).1
    · exact h.providers x hx
  · rw [exists_mem_snoc, ← h.customers]
    constructor
    · rintro ⟨y, hy, hcas⟩
      obtain ⟨x, hx, rfl⟩ := List.mem_map.mp hy
      exact Or.inl ⟨x, hx, (hsame x).symm.trans hcas⟩
    · rintro (⟨x, hx, hcas⟩ | hcas)
      · exact ⟨_, List.mem_map_of_mem hx, (hsame x).trans hcas⟩
      · exact ⟨_, List.mem_map_of_mem hmem, (hsame aspa).trans (has.trans hcas)⟩
  · intro y hy p
    obtain ⟨x, hx, rfl⟩ := List.mem_map.mp hy
    rw [hsame, exists_mem_snoc, ← h.tas x hx]
    split_ifs with hxa
    · rw [(AspaSet.merge_tas (h.providers x hx) s).2, hxa, has]
      exact or_congr_right (and_iff_right rfl).symm
    · refine (or_iff_left_of_imp ?_).symm
      rintro ⟨hcas, -⟩
      exact absurd (eq_of_key_eq h.sorted hx hmem (hcas.symm.trans has.symm)) hxa

/-- The customer is new. -/
theorem MergedFrom.insert (h : MergedFrom l t) (hnew : ∀ x ∈ t, x.as ≠ s.as) :
    MergedFrom (l ++ [s])
      ((rbInsert aspaCmp (s.merge ⟨s.as, []⟩) t).getD t) := by
  obtain ⟨hsorted, hmem⟩ := AspaSet.merge_tas (x := ⟨s.as, []⟩) List.Pairwise.nil s
  cases hins : rbInsert aspaCmp (s.merge ⟨s.as, []⟩) t with
  | none =>
    obtain ⟨y, hy, hcas⟩ := (rbInsert_eq_none_iff aspaCmp_comparesBy h.sorted).mp hins
    exact absurd hcas (hnew y hy)
  | some t' =>
    have hperm := rbInsert_perm hins
    have hnone : ∀ p, ¬∃ s' ∈ l, s'.as = s.as ∧ p ∈ s'.tas := by
      rintro p ⟨s', hs', hcas, -⟩
      obtain ⟨x, hx, hcas'⟩ := (h.customers s.as).mpr ⟨s', hs', hcas⟩
      exact hnew x hx hcas'
    rw [Option.getD_some]
    refine ⟨rbInsert_sorted aspaCmp_comparesBy h.sorted hins, ?_, fun cas => ?_, ?_⟩
    · intro x hx
      rcases List.mem_cons.mp (hperm.mem_iff.mp hx) with rfl | hx
      · exact hsorted
      · exact h.providers x hx
    · rw [exists_mem_snoc, ← h.customers]
      simp only [hperm.mem_iff, List.mem_cons, exists_eq_or_imp]
      exact or_comm
    · intro x hx p
      rw [exists_mem_snoc]
      rcases List.mem_cons.mp (hperm.mem_iff.mp hx) with rfl | hx
      · rw [hmem, or_iff_right List.not_mem_nil]
        have hor : (∃ s' ∈ l, s'.as = s.as ∧ p ∈ s'.tas) ∨ s.as = s.as ∧ p ∈ s.tas ↔ p ∈ s.tas :=
          (or_iff_right (hnone p)).trans (and_iff_right rfl)
        exact hor.symm
      · rw [h.tas x hx]
        exact (or_iff_left fun hcas => hnew x hx hcas.1.symm).symm

theorem MergedFrom.rtrAspaInsert (h : MergedFrom l t) (s : AspaSet) :
    MergedFrom (l ++ [s]) (rtrAspaInsert t s) := by
  unfold Rtr.rtrAspaInsert
  cases hfind : rbFind aspaCmp ⟨s.as, []⟩ t with
  | none =>
    refine h.insert fun x hx hcas => ?_
    have hne := List.find?_eq_none.mp hfind x hx
    rw [decide_eq_true_eq, aspaCmp_comparesBy.eq] at hne
    exact hne hcas.symm
  | some aspa =>
    have heq := List.find?_some hfind
    rw [decide_eq_true_eq, aspaCmp_comparesBy.eq] at heq
    exact h.merge (List.mem_of_find?_eq_some hfind) heq.symm

theorem MergedFrom.foldl (h : MergedFrom l t) (more : List AspaSet) :
    MergedFrom (l ++ more) (more.foldl Rtr.rtrAspaInsert t) := by
  induction more generalizing l t with
  | nil => rwa [List.append_nil]
  | cons s more ih =>
    rw [← List.singleton_append, ← List.append_assoc]
    exact ih (h.rtrAspaInsert s)

/-- The ASPA sets of all sources. -/
def allAspas (conf : Static) (sources : List RpkiData) : List AspaSet :=
  conf.aspa.map (·.1) ++ sources.flatMap RpkiData.aspa

theorem mergedAspas_spec (conf : Static) (sources : List RpkiData) :
    MergedFrom (allAspas conf sources) (mergedAspas conf sources) := by
  have heq : mergedAspas conf sources = (allAspas conf sources).foldl rtrAspaInsert [] := by
    unfold mergedAspas allAspas
    rw [List.foldl_append, List.foldl_flatMap]
  rw [heq]
  exact MergedFrom.nil.foldl _

/-- The providers of a customer in all sources. -/
def unionTas (l : List AspaSet) (cas : ℕ) : Finset ℕ :=
  ((l.filter fun s => s.as = cas).flatMap AspaSet.tas).toFinset

theorem mem_unionTas {p : ℕ} : p ∈ unionTas l cas ↔ ∃ s ∈ l, s.as = cas ∧ p ∈ s.tas := by
  unfold unionTas
  rw [List.mem_toFinset, List.mem_flatMap]
  simp only [List.mem_filter, decide_eq_true_eq, and_assoc]

/-- Each set of the tree has a customer of the sources, and all of its providers in order. -/
theorem MergedFrom.mem_iff (h : MergedFrom l t) :
    x ∈ t ↔ (∃ s ∈ l, s.as = x.as) ∧ x.tas = (unionTas l x.as).sort := by
  have hsort : ∀ y ∈ t, y.tas = (unionTas l y.as).sort := by
    intro y hy
    have hmem : ∀ p, p ∈ y.tas ↔ p ∈ (unionTas l y.as).sort := by
      intro p
      rw [h.tas y hy, Finset.mem_sort, mem_unionTas]
    exact eq_of_sorted (k := id) (h.providers y hy) (Finset.sortedLT_sort _).pairwise hmem
  constructor
  · intro hx
    exact ⟨(h.customers _).mp ⟨x, hx, rfl⟩, hsort x hx⟩
  · rintro ⟨hcas, htas⟩
    obtain ⟨y, hy, hcas'⟩ := (h.customers _).mpr hcas
    have htas' : y.tas = x.tas := by rw [hsort y hy, hcas', htas]
    obtain ⟨yas, ytas⟩ := y
    obtain ⟨xas, xtas⟩ := x
    obtain rfl : yas = xas := hcas'
    obtain rfl : ytas = xtas := htas'
    exact hy

theorem mergedAspas_perm (h : sources.Perm sources') :
    mergedAspas conf sources = mergedAspas conf sources' := by
  have hperm : (allAspas conf sources).Perm (allAspas conf sources') :=
    (h.flatMap_right _).append_left _
  have hunion : ∀ cas, unionTas (allAspas conf sources) cas =
      unionTas (allAspas conf sources') cas := by
    intro cas
    apply Finset.ext
    intro p
    simp only [mem_unionTas, hperm.mem_iff]
  have hspec := mergedAspas_spec conf sources
  have hspec' := mergedAspas_spec conf sources'
  apply eq_of_sorted hspec.sorted hspec'.sorted
  intro x
  rw [hspec.mem_iff, hspec'.mem_iff, hunion]
  simp only [hperm.mem_iff]

end Bgpd.Rtr
