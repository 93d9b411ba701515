import Bgpd.Lib.RbTree
import Bgpd.Rpki.Tables

/-!
# Filling an ASPA Table

`aspa_add_set` puts the sets into an array in which those with the same hash are neighbors, the
smallest customer first; the hash table points to the first of them. This works out because the
customers come in descending order: each new set goes in front of its run.

## Main results

- `RdeAspa.Runs`: the array as a list of runs
- `RdeAspa.Runs.addSet`: what a set adds
- `RdeAspa.Runs.lookup`: `aspa_lookup` finds what is in the runs
- `aspaFill_ok`: a table of sets in descending order
-/

namespace Bgpd.Rpki

open Bgpd.Lib

/-! ## Runs -/

/-- The sets with one hash: the slot and the customers with their providers. -/
abbrev AspaRun := ℕ × List (ℕ × List ℕ)

/-- The nodes of a run: all but the last have `next` set. -/
def nodes : List (ℕ × List ℕ) → List AspaSet
  | [] => []
  | x :: l => ⟨x.1, x.2, !l.isEmpty⟩ :: nodes l

/-- The nodes of all runs. -/
def allNodes (runs : List AspaRun) : List AspaSet := runs.flatMap fun r => nodes r.2

/-- The sets of all runs. -/
def members (runs : List AspaRun) : List (ℕ × List ℕ) := runs.flatMap Prod.snd

/-- Where the run of a slot starts. -/
def runStart (h : ℕ) : List AspaRun → Option ℕ
  | [] => none
  | r :: runs => if r.1 = h then some 0 else (runStart h runs).map (· + r.2.length)

/-- A set goes in front of its run. -/
def insertRun (h : ℕ) (x : ℕ × List ℕ) : List AspaRun → List AspaRun
  | [] => [(h, [x])]
  | r :: runs => if r.1 = h then (h, x :: r.2) :: runs else r :: insertRun h x runs

variable {runs : List AspaRun} {h k : ℕ} {x : ℕ × List ℕ} {l : List (ℕ × List ℕ)} {asnum : ℕ}

@[simp] theorem nodes_length (l : List (ℕ × List ℕ)) : (nodes l).length = l.length := by
  induction l with
  | nil => rfl
  | cons x l ih => rw [nodes, List.length_cons, List.length_cons, ih]

theorem allNodes_cons (r : AspaRun) (runs : List AspaRun) :
    allNodes (r :: runs) = nodes r.2 ++ allNodes runs := List.flatMap_cons

theorem runStart_eq_none_iff : runStart h runs = none ↔ ∀ r ∈ runs, r.1 ≠ h := by
  induction runs with
  | nil => simp [runStart]
  | cons r runs ih =>
    rw [runStart, List.forall_mem_cons]
    split_ifs with hr
    · exact iff_of_false (fun h => nomatch h) fun hne => hne.1 hr
    · rw [Option.map_eq_none_iff, ih]
      exact (and_iff_right hr).symm

/-- The nodes from the start of a run on. -/
theorem drop_runStart (hk : runStart h runs = some k) :
    ∃ r ∈ runs, r.1 = h ∧ ∃ rest, (allNodes runs).drop k = nodes r.2 ++ rest := by
  induction runs generalizing k with
  | nil => cases hk
  | cons r runs ih =>
    rw [runStart] at hk
    rw [allNodes_cons]
    split_ifs at hk with hr
    · obtain rfl := Option.some.inj hk
      exact ⟨r, List.mem_cons_self, hr, allNodes runs, rfl⟩
    · obtain ⟨j, hj, rfl⟩ := Option.map_eq_some_iff.mp hk
      obtain ⟨r', hr', hslot, rest, hrest⟩ := ih hj
      refine ⟨r', List.mem_cons_of_mem _ hr', hslot, rest, ?_⟩
      rw [← nodes_length, Nat.add_comm, List.drop_append,
        List.drop_eq_nil_of_le (Nat.le_add_right _ _), Nat.add_sub_cancel_left, hrest]
      rfl

/-! ## Insertions -/

theorem members_insertRun (h : ℕ) (x : ℕ × List ℕ) (runs : List AspaRun) :
    (members (insertRun h x runs)).Perm (x :: members runs) := by
  induction runs with
  | nil => exact List.Perm.refl _
  | cons r runs ih =>
    rw [insertRun]
    split_ifs
    · exact List.Perm.refl _
    · exact (ih.append_left r.2).trans List.perm_middle

theorem allNodes_insertRun_of_none (hnone : runStart h runs = none) :
    allNodes (insertRun h x runs) = allNodes runs ++ [⟨x.1, x.2, false⟩] := by
  induction runs with
  | nil => rfl
  | cons r runs ih =>
    rw [runStart_eq_none_iff, List.forall_mem_cons] at hnone
    rw [insertRun, if_neg hnone.1, allNodes_cons, allNodes_cons,
      ih (runStart_eq_none_iff.mpr hnone.2), List.append_assoc]

theorem insertIdx_length_add {α : Type} (l l' : List α) (j : ℕ) (a : α) :
    (l ++ l').insertIdx (l.length + j) a = l ++ l'.insertIdx j a := by
  induction l with
  | nil => rw [List.length_nil, Nat.zero_add, List.nil_append, List.nil_append]
  | cons b l ih =>
    rw [List.length_cons, Nat.add_right_comm, List.cons_append, List.insertIdx_succ_cons, ih,
      List.cons_append]

theorem allNodes_insertRun_of_some (hne : ∀ r ∈ runs, r.2 ≠ []) (hk : runStart h runs = some k) :
    allNodes (insertRun h x runs) = (allNodes runs).insertIdx k ⟨x.1, x.2, true⟩ := by
  induction runs generalizing k with
  | nil => cases hk
  | cons r runs ih =>
    obtain ⟨hr, hne⟩ := List.forall_mem_cons.mp hne
    rw [runStart] at hk
    rw [insertRun, allNodes_cons]
    split_ifs at hk ⊢ with hslot
    · obtain rfl := Option.some.inj hk
      rw [allNodes_cons, nodes, List.insertIdx_zero]
      obtain ⟨y, l, hl⟩ := List.exists_cons_of_ne_nil hr
      rw [hl]
      rfl
    · obtain ⟨j, hj, rfl⟩ := Option.map_eq_some_iff.mp hk
      rw [allNodes_cons, ih hne hj, Nat.add_comm, ← nodes_length, insertIdx_length_add]

theorem runStart_insertRun_of_none (hnone : runStart h runs = none) (h' : ℕ) :
    runStart h' (insertRun h x runs) =
      if h' = h then some (allNodes runs).length else runStart h' runs := by
  induction runs with
  | nil =>
    rw [insertRun, runStart]
    simp only [runStart, eq_comm (a := h)]
    rfl
  | cons r runs ih =>
    rw [runStart_eq_none_iff, List.forall_mem_cons] at hnone
    rw [insertRun, if_neg hnone.1, runStart, ih (runStart_eq_none_iff.mpr hnone.2), allNodes_cons,
      List.length_append, nodes_length, runStart]
    by_cases hh : h' = h
    · subst hh
      rw [if_neg hnone.1, if_pos rfl, if_pos rfl, Option.map_some, Nat.add_comm]
    · rw [if_neg hh, if_neg hh]

/-- Inserting moves the start of a later run by one and no other. -/
theorem runStart_insertRun_of_some (hne : ∀ r ∈ runs, r.2 ≠ []) (hk : runStart h runs = some k)
    (h' : ℕ) :
    runStart h' (insertRun h x runs) =
      if h' = h then some k else (runStart h' runs).map fun j => if k < j then j + 1 else j := by
  induction runs generalizing k with
  | nil => cases hk
  | cons r runs ih =>
    obtain ⟨hr, hne⟩ := List.forall_mem_cons.mp hne
    have hpos : 0 < r.2.length := List.length_pos_of_ne_nil hr
    rw [runStart] at hk
    rw [insertRun, runStart]
    split_ifs at hk with hslot
    · obtain rfl := Option.some.inj hk
      rw [if_pos hslot, runStart]
      by_cases hh : h' = h
      · rw [if_pos hh, if_pos hh.symm]
      · have hr' : ¬r.1 = h' := fun heq => hh (heq.symm.trans hslot)
        rw [if_neg hh, if_neg (Ne.symm hh), if_neg hr', Option.map_map]
        refine Option.map_congr fun j _ => ?_
        rw [Function.comp_apply, if_pos (by omega), List.length_cons]
        rfl
    · obtain ⟨j, hj, rfl⟩ := Option.map_eq_some_iff.mp hk
      rw [if_neg hslot, runStart, ih hne hj]
      by_cases hr' : r.1 = h'
      · rw [if_pos hr', if_pos hr', if_neg fun heq => hslot (hr'.trans heq)]
        exact congrArg some (if_neg (Nat.not_lt_zero _)).symm
      · rw [if_neg hr', if_neg hr']
        by_cases hh : h' = h
        · rw [if_pos hh, if_pos hh]
          rfl
        · rw [if_neg hh, if_neg hh, Option.map_map, Option.map_map]
          refine Option.map_congr fun i _ => ?_
          rw [Function.comp_apply, Function.comp_apply]
          split_ifs <;> omega

/-! ## Tables -/

/-- The table holds the runs. Each run is in ascending order. -/
structure RdeAspa.Runs (ra : RdeAspa) (runs : List AspaRun) : Prop where
  sets : ra.sets = allNodes runs
  table : ∀ h, ra.table h = runStart h runs
  nonempty : ∀ r ∈ runs, r.2 ≠ []
  sorted : ∀ r ∈ runs, TreeSorted Prod.fst r.2
  slot : ∀ r ∈ runs, ∀ x ∈ r.2, ra.slot x.1 = r.1
  nodup : (runs.map Prod.fst).Nodup

/-- The fields that an insertion leaves as they are. -/
structure RdeAspa.SameSizes (ra ra' : RdeAspa) : Prop where
  mask : ra'.mask = ra.mask
  maxset : ra'.maxset = ra.maxset
  maxdata : ra'.maxdata = ra.maxdata

variable {ra : RdeAspa} {cas : ℕ} {pas : List ℕ}

theorem members_length (runs : List AspaRun) : (members runs).length = (allNodes runs).length := by
  unfold members allNodes
  rw [List.length_flatMap, List.length_flatMap]
  simp only [nodes_length]

theorem mem_members {x : ℕ × List ℕ} : x ∈ members runs ↔ ∃ r ∈ runs, x ∈ r.2 := List.mem_flatMap

/-- What holds of all runs still holds if it holds of the new one. -/
theorem forall_insertRun {P : AspaRun → Prop} (hruns : ∀ r ∈ runs, P r) (hnew : P (h, [x]))
    (hcons : ∀ r ∈ runs, r.1 = h → P (h, x :: r.2)) : ∀ r ∈ insertRun h x runs, P r := by
  induction runs with
  | nil =>
    intro r hr
    rw [List.mem_singleton.mp hr]
    exact hnew
  | cons r runs ih =>
    obtain ⟨hr, hruns⟩ := List.forall_mem_cons.mp hruns
    obtain ⟨hr', hcons⟩ := List.forall_mem_cons.mp hcons
    rw [insertRun]
    split_ifs with hslot
    · exact List.forall_mem_cons.mpr ⟨hr' hslot, hruns⟩
    · exact List.forall_mem_cons.mpr ⟨hr, ih hruns hcons⟩

theorem slots_insertRun (hnodup : (runs.map Prod.fst).Nodup) :
    ((insertRun h x runs).map Prod.fst).Nodup := by
  have hslots : (insertRun h x runs).map Prod.fst =
      if h ∈ runs.map Prod.fst then runs.map Prod.fst else runs.map Prod.fst ++ [h] := by
    clear hnodup
    induction runs with
    | nil => rfl
    | cons r runs ih =>
      rw [insertRun, List.map_cons]
      by_cases hr : r.1 = h
      · rw [if_pos hr, if_pos (by rw [hr]; exact List.mem_cons_self), List.map_cons, hr]
      · rw [if_neg hr, List.map_cons, ih]
        have hmem : h ∈ r.1 :: runs.map Prod.fst ↔ h ∈ runs.map Prod.fst :=
          List.mem_cons.trans (or_iff_right (Ne.symm hr))
        simp only [hmem]
        split_ifs
        · rfl
        · rfl
  rw [hslots]
  split_ifs with hmem
  · exact hnodup
  · refine List.nodup_append.mpr ⟨hnodup, List.nodup_singleton h, ?_⟩
    intro a ha b hb heq
    rw [List.mem_singleton.mp hb] at heq
    exact hmem (heq ▸ ha)

namespace RdeAspa.Runs

/-- A table without sets. -/
theorem empty (mask maxset maxdata : ℕ) :
    Runs { mask := mask, maxset := maxset, maxdata := maxdata } [] where
  sets := rfl
  table _ := rfl
  nonempty _ hr := nomatch hr
  sorted _ hr := nomatch hr
  slot _ hr := nomatch hr
  nodup := List.nodup_nil

/-- A smaller customer goes in front of its run. -/
theorem insertSet (hr : ra.Runs runs) (pas : List ℕ) (hbig : ∀ x ∈ members runs, cas < x.1) :
    ∃ ra', ra.insertSet cas pas = .ok ra' ∧
      ra'.Runs (insertRun (ra.slot cas) (cas, pas) runs) ∧ ra.SameSizes ra' ∧
      ra'.curdata = ra.curdata := by
  have hinv : ∀ r ∈ insertRun (ra.slot cas) (cas, pas) runs,
      r.2 ≠ [] ∧ TreeSorted Prod.fst r.2 ∧ ∀ x ∈ r.2, ra.slot x.1 = r.1 := by
    refine forall_insertRun (fun r hmem => ⟨hr.nonempty r hmem, hr.sorted r hmem, hr.slot r hmem⟩)
      ⟨List.cons_ne_nil _ _, List.pairwise_singleton _ _, fun x hx => ?_⟩
      fun r hmem hslot => ⟨List.cons_ne_nil _ _, ?_, fun x hx => ?_⟩
    · rw [List.mem_singleton.mp hx]
    · refine List.pairwise_cons.mpr ⟨fun x hx => ?_, hr.sorted r hmem⟩
      exact hbig x (mem_members.mpr ⟨r, hmem, hx⟩)
    · rcases List.mem_cons.mp hx with rfl | hx
      · rfl
      · exact (hr.slot r hmem x hx).trans hslot
  have hnodup := slots_insertRun (h := ra.slot cas) (x := (cas, pas)) hr.nodup
  unfold RdeAspa.insertSet
  cases hstart : ra.table (ra.slot cas) with
  | none =>
    rw [hr.table] at hstart
    refine
      ⟨_, rfl, ⟨?_, fun h => ?_, fun r hmem => (hinv r hmem).1, fun r hmem => (hinv r hmem).2.1,
      fun r hmem => (hinv r hmem).2.2, hnodup⟩, ⟨rfl, rfl, rfl⟩, rfl⟩
    · rw [allNodes_insertRun_of_none hstart, ← hr.sets]
    · dsimp only
      rw [runStart_insertRun_of_none hstart, Function.update_apply, hr.table, hr.sets]
  | some k =>
    rw [hr.table] at hstart
    obtain ⟨r, hmem, -, rest, hdrop⟩ := drop_runStart hstart
    obtain ⟨x, l, hl⟩ := List.exists_cons_of_ne_nil (hr.nonempty r hmem)
    have hfirst : ra.sets.getD k ⟨0, [], false⟩ = ⟨x.1, x.2, !l.isEmpty⟩ := by
      rw [hr.sets, List.getD_eq_getElem?_getD, ← List.head?_drop, hdrop, hl]
      rfl
    have hlt : cas < x.1 :=
      hbig x (mem_members.mpr ⟨r, hmem, by rw [hl]; exact List.mem_cons_self⟩)
    dsimp only
    rw [hfirst, if_neg (not_le.mpr hlt)]
    refine
      ⟨_, rfl, ⟨?_, fun h => ?_, fun r hmem => (hinv r hmem).1, fun r hmem => (hinv r hmem).2.1,
      fun r hmem => (hinv r hmem).2.2, hnodup⟩, ⟨rfl, rfl, rfl⟩, rfl⟩
    · rw [allNodes_insertRun_of_some hr.nonempty hstart, ← hr.sets]
    · dsimp only
      rw [runStart_insertRun_of_some hr.nonempty hstart, Function.update_apply, hr.table]

/-- What a set adds. -/
theorem addSet (hr : ra.Runs runs) (cas : ℕ) (pas : List ℕ) (hbig : ∀ x ∈ members runs, cas < x.1)
    (hset : (members runs).length < ra.maxset) (hdata : ra.curdata + pas.length ≤ ra.maxdata) :
    ∃ ra', aspaAddSet ra cas pas = .ok ra' ∧
      ra'.Runs (insertRun (ra.slot cas) (cas, pas) runs) ∧ ra.SameSizes ra' ∧
      ra'.curdata = ra.curdata + pas.length := by
  obtain ⟨ra', hins, hr', hsame, hcur⟩ := hr.insertSet pas hbig
  rw [members_length, ← hr.sets] at hset
  unfold aspaAddSet
  rw [if_neg (not_le.mpr hset), hins]
  simp only [bind, Except.bind]
  rw [hsame.maxdata, hcur, if_neg (by omega)]
  exact ⟨_, rfl, ⟨hr'.sets, hr'.table, hr'.nonempty, hr'.sorted, hr'.slot, hr'.nodup⟩,
    ⟨hsame.mask, hsame.maxset, rfl⟩, rfl⟩

/-- Sets in descending order fit if the totals are right. -/
theorem addSets (hr : ra.Runs runs) (more : List (ℕ × List ℕ))
    (hbig : ∀ x ∈ members runs, ∀ y ∈ more, y.1 < x.1) (hdesc : more.Pairwise fun a b => b.1 < a.1)
    (hset : (members runs).length + more.length ≤ ra.maxset)
    (hdata : ra.curdata + (more.flatMap Prod.snd).length ≤ ra.maxdata) :
    ∃ ra' runs', more.foldlM (fun ra set => aspaAddSet ra set.1 set.2) ra = .ok ra' ∧
      ra'.Runs runs' ∧ (members runs').Perm (more.reverse ++ members runs) := by
  induction more generalizing ra runs with
  | nil => exact ⟨ra, runs, rfl, hr, List.Perm.refl _⟩
  | cons x more ih =>
    obtain ⟨hx, hdesc⟩ := List.pairwise_cons.mp hdesc
    rw [List.length_cons] at hset
    rw [List.flatMap_cons, List.length_append] at hdata
    obtain ⟨ra₁, hadd, hr₁, hsame, hcur⟩ := hr.addSet x.1 x.2
      (fun y hy => hbig y hy x List.mem_cons_self) (by omega) (by omega)
    have hperm := members_insertRun (ra.slot x.1) x runs
    obtain ⟨ra', runs', hfold, hr', hperm'⟩ := ih hr₁
      (fun y hy z hz => by
        rcases List.mem_cons.mp (hperm.mem_iff.mp hy) with rfl | hy
        · exact hx z hz
        · exact hbig y hy z (List.mem_cons_of_mem _ hz))
      hdesc (by rw [hperm.length_eq, hsame.maxset, List.length_cons]; omega)
      (by rw [hcur, hsame.maxdata]; omega)
    refine ⟨ra', runs', ?_, hr', ?_⟩
    · rw [List.foldlM_cons, hadd]
      exact hfold
    · refine hperm'.trans ((hperm.append_left _).trans ?_)
      rw [List.reverse_cons, List.append_assoc]
      exact List.Perm.refl _

end RdeAspa.Runs

/-! ## Lookups -/

/-- The walk along a run. -/
theorem aspaLookupFrom_nodes (asnum : ℕ) (hne : l ≠ []) (hl : TreeSorted Prod.fst l)
    (rest : List AspaSet) :
    (aspaLookupFrom asnum (nodes l ++ rest)).map AspaSet.pair = l.find? fun x => x.1 = asnum := by
  induction l with
  | nil => exact absurd rfl hne
  | cons x l ih =>
    obtain ⟨hx, hl⟩ := List.pairwise_cons.mp hl
    rw [nodes, List.cons_append, aspaLookupFrom, List.find?_cons]
    dsimp only
    rcases lt_trichotomy x.1 asnum with hlt | heq | hgt
    · rw [if_pos hlt, decide_eq_false hlt.ne]
      cases l with
      | nil => rfl
      | cons y l => exact ih (List.cons_ne_nil _ _) hl
    · rw [if_neg heq.not_lt, if_pos heq, decide_eq_true heq]
      rfl
    · rw [if_neg hgt.not_gt, if_neg hgt.ne', decide_eq_false hgt.ne']
      symm
      apply List.find?_eq_none.mpr
      intro y hy hfind
      rw [decide_eq_true_eq] at hfind
      exact absurd (hgt.trans (hx y hy)) (by rw [hfind]; exact lt_irrefl _)

/-- `aspa_lookup` finds what is in the runs. -/
theorem RdeAspa.Runs.lookup (hr : ra.Runs runs) (asnum : ℕ) :
    (∀ x ∈ members runs, x.1 = asnum → (aspaLookup ra asnum).map AspaSet.pair = some x) ∧
      ((∀ x ∈ members runs, x.1 ≠ asnum) → aspaLookup ra asnum = none) := by
  unfold aspaLookup
  rw [hr.table]
  cases hstart : runStart (ra.slot asnum) runs with
  | none =>
    refine ⟨fun x hx has => ?_, fun _ => rfl⟩
    obtain ⟨r, hmem, hx⟩ := mem_members.mp hx
    have hslot := hr.slot r hmem x hx
    rw [has] at hslot
    exact absurd hslot.symm (runStart_eq_none_iff.mp hstart r hmem)
  | some k =>
    obtain ⟨r, hmem, hslot, rest, hdrop⟩ := drop_runStart hstart
    have hwalk := aspaLookupFrom_nodes asnum (hr.nonempty r hmem) (hr.sorted r hmem) rest
    dsimp only
    rw [hr.sets, hdrop]
    constructor
    · intro x hx has
      obtain ⟨r', hmem', hx⟩ := mem_members.mp hx
      -- the run of the slot is the one with the set
      have hslot' := hr.slot r' hmem' x hx
      rw [has, ← hslot] at hslot'
      obtain rfl := List.inj_on_of_nodup_map hr.nodup hmem hmem' hslot'
      rw [hwalk]
      cases hfind : r.2.find? fun y => y.1 = asnum with
      | none =>
        have hne := List.find?_eq_none.mp hfind x hx
        rw [decide_eq_true_eq] at hne
        exact absurd has hne
      | some y =>
        have hy := List.find?_some hfind
        rw [decide_eq_true_eq] at hy
        rw [eq_of_key_eq (hr.sorted r hmem) (List.mem_of_find?_eq_some hfind) hx
          (hy.trans has.symm)]
    · intro hnone
      rw [List.find?_eq_none.mpr fun x hx => ?_] at hwalk
      · exact Option.map_eq_none_iff.mp hwalk
      · rw [decide_eq_true_eq]
        exact hnone x (mem_members.mpr ⟨r, hmem, hx⟩)

/-- The providers of a customer, if it has a set. -/
def aspaEntry (t : Option RdeAspa) (cas : ℕ) : Option (List ℕ) :=
  t.bind fun ra => (aspaLookup ra cas).map (·.pas)

/-- Sets in descending order, with the right totals, make a table in which each of them is found. -/
theorem aspaFill_ok (sets : List (ℕ × List ℕ)) (hdesc : sets.Pairwise fun a b => b.1 < a.1)
    (hmany : sets.length ≤ (2 ^ 32 - 1) / 2) :
    ∃ t, aspaFill sets.length (4 * (sets.flatMap Prod.snd).length) sets = .ok t ∧
      ∀ cas pas, aspaEntry t cas = some pas ↔ (cas, pas) ∈ sets := by
  unfold aspaFill aspaTablePrep
  by_cases hempty : sets.length = 0
  · rw [if_pos hempty]
    refine ⟨none, rfl, fun cas pas => iff_of_false (fun h => nomatch h) ?_⟩
    rw [List.length_eq_zero_iff.mp hempty]
    exact List.not_mem_nil
  · rw [if_neg hempty, if_neg (not_lt.mpr hmany)]
    obtain ⟨ra, runs, hfold, hr, hperm⟩ := (RdeAspa.Runs.empty (aspaHsize sets.length 22 1024 - 1)
      sets.length (4 * (sets.flatMap Prod.snd).length / 4)).addSets sets
      (fun x hx => absurd hx List.not_mem_nil) hdesc (Nat.zero_add _).le
      (by rw [Nat.mul_div_cancel_left _ (by omega)]; exact (Nat.zero_add _).le)
    have hmem : ∀ x, x ∈ members runs ↔ x ∈ sets := by
      intro x
      rw [hperm.mem_iff]
      exact List.mem_append.trans ((or_iff_left List.not_mem_nil).trans List.mem_reverse)
    refine ⟨some ra, ?_, fun cas pas => ?_⟩
    · simp only [bind, Except.bind, pure, Except.pure]
      rw [hfold]
    · obtain ⟨hfound, hnone⟩ := hr.lookup cas
      constructor
      · intro hentry
        obtain ⟨s, hs, rfl⟩ := Option.map_eq_some_iff.mp hentry
        by_cases hin : ∃ x ∈ members runs, x.1 = cas
        · obtain ⟨x, hx, has⟩ := hin
          have hpair := hfound x hx has
          rw [hs, Option.map_some] at hpair
          obtain rfl := Option.some.inj hpair
          rw [← has]
          exact (hmem _).mp hx
        · rw [hnone fun x hx has => hin ⟨x, hx, has⟩] at hs
          cases hs
      · intro hx
        have hpair := hfound (cas, pas) ((hmem _).mpr hx) rfl
        obtain ⟨s, hs, hpair⟩ := Option.map_eq_some_iff.mp hpair
        have hpas : s.pas = pas := congrArg Prod.snd hpair
        unfold aspaEntry
        rw [Option.bind_some, hs, Option.map_some, hpas]

end Bgpd.Rpki
