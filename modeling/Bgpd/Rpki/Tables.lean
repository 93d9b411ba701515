import Bgpd.Rpki.Trie
import Bgpd.Rpki.Aspa

/-!
# Comparison of Tables

The RTR engine sends its tables as a whole, and the RDE compares a new table with the old one
to find out if something changed: `trie_equal` for the ROAs and `aspa_table_equal` for the ASPA
sets. Tables that compare as equal give the same results.

`aspa_table_equal` compares the array of the nodes and the data area, but not which part of
the data area belongs to a node. The comparison is right since the sets are sent in
descending order of their customer: the order of the nodes then fixes the order of the data.

## Main results

- `trieEqual_iff`: `trie_equal` is equality
- `aspaTableEqual_eq`: tables that are filled in order and compare as equal are equal
-/

namespace Bgpd.Rpki

/-! ## ROA tables -/

/-- `set_equal` -/
def setEqual : SetTable → SetTable → Bool
  | none, none => true
  | some a, some b => decide (a.length = b.length) && decide (a = b)
  | _, _ => false

/-- `trie_equal_v4` and `trie_equal_v6` -/
def trieEqualNode {w : ℕ} : Trie w SetTable → Trie w SetTable → Bool
  | .nil, .nil => true
  | .node addr plen real set trie0 trie1, .node addr' plen' real' set' trie0' trie1' =>
    decide (addr = addr' ∧ plen = plen' ∧ real = real') && setEqual set set' &&
      trieEqualNode trie0 trie0' && trieEqualNode trie1 trie1'
  | _, _ => false

/-- `trie_equal` -/
def trieEqual (a b : RoaHead) : Bool := trieEqualNode a.v4 b.v4 && trieEqualNode a.v6 b.v6

/-- The ROAs of one transfer. One that is not accepted is only reported. -/
def roaTable (roas : List AnyRoa) : RoaHead :=
  roas.foldl (fun th roa => (trieRoaAdd th roa).getD th) {}

theorem setEqual_iff {a b : SetTable} : setEqual a b = true ↔ a = b := by
  cases a <;> cases b <;> simp [setEqual]
  rintro rfl
  rfl

theorem trieEqualNode_iff {w : ℕ} {a b : Trie w SetTable} : trieEqualNode a b = true ↔ a = b := by
  induction a generalizing b with
  | nil => cases b <;> simp [trieEqualNode]
  | node addr plen real set trie0 trie1 ih0 ih1 =>
    cases b with
    | nil => simp [trieEqualNode]
    | node addr' plen' real' set' trie0' trie1' =>
      simp only [trieEqualNode, Bool.and_eq_true, decide_eq_true_eq, setEqual_iff, ih0, ih1,
        Trie.node.injEq, and_assoc]

theorem trieEqual_iff {a b : RoaHead} : trieEqual a b = true ↔ a = b := by
  cases a
  cases b
  simp [trieEqual, trieEqualNode_iff]

/-! ## ASPA tables -/

/-- `struct rde_aspa` with its data area: the providers in the order in which they were
    added. -/
structure AspaTable where
  ra : RdeAspa
  data : List ℕ

/-- The sizes that the RTR engine computes for `IMSG_RECONF_ASPA_PREP`, and the sets. -/
def aspaTransfer (sets : List (ℕ × List ℕ)) : Except AspaFatal (Option AspaTable) :=
  (aspaFill sets.length (4 * (sets.flatMap (·.2)).length) sets).map
    (Option.map fun ra => ⟨ra, sets.flatMap (·.2)⟩)

/-- A node that was never filled. -/
def AspaSet.zero : AspaSet := ⟨0, [], false⟩

/-- `aspa_table_equal` -/
def aspaTableEqual : Option AspaTable → Option AspaTable → Bool
  | none, none => true
  | some a, some b =>
    if a.ra.maxset ≠ b.ra.maxset ∨ a.ra.maxdata ≠ b.ra.maxdata then false
    else
      (List.range a.ra.maxset).all (fun i =>
        let sa := a.ra.sets.getD i AspaSet.zero
        let sb := b.ra.sets.getD i AspaSet.zero
        decide (sa.as = sb.as ∧ sa.pas.length = sb.pas.length)) &&
      decide (a.data.take a.ra.maxdata = b.data.take a.ra.maxdata)
  | _, _ => false

/-- Customer and providers of a node. -/
def AspaSet.pair (s : AspaSet) : ℕ × List ℕ := (s.as, s.pas)

/-- Pointers point to nodes. -/
def RdeAspa.PtrsOk (ra : RdeAspa) : Prop := ∀ i k, ra.table i = some k → k < ra.sets.length

/-- The nodes are those of the sets, in some order. -/
structure RdeAspa.Holds (ra : RdeAspa) (sets : List (ℕ × List ℕ)) : Prop where
  ptrs : ra.PtrsOk
  perm : (ra.sets.map AspaSet.pair).Perm sets

/-- Inserting one set adds it and leaves the limits. -/
theorem RdeAspa.Holds.insertSet {ra ra' : RdeAspa} {sets : List (ℕ × List ℕ)} (h : ra.Holds sets)
    {cas : ℕ} {pas : List ℕ} (heq : ra.insertSet cas pas = .ok ra') :
    ra'.Holds ((cas, pas) :: sets) ∧ ra'.maxset = ra.maxset ∧ ra'.maxdata = ra.maxdata := by
  unfold RdeAspa.insertSet at heq
  split at heq
  · cases heq
    refine ⟨⟨fun i k hk => ?_, ?_⟩, rfl, rfl⟩
    · dsimp only at hk ⊢
      rw [Function.update_apply] at hk
      rw [List.length_append, List.length_singleton]
      split at hk
      · cases hk
        omega
      · have := h.ptrs i k hk
        omega
    · rw [List.map_append]
      exact List.perm_append_comm.trans (h.perm.cons _)
  · next k hk =>
    split_ifs at heq
    cases heq
    have hlt := h.ptrs _ k hk
    refine ⟨⟨fun i j hj => ?_, ?_⟩, rfl, rfl⟩
    · dsimp only at hj ⊢
      rw [Function.update_apply] at hj
      rw [List.length_insertIdx_of_le_length (Nat.le_of_lt hlt)]
      split at hj
      · cases hj
        omega
      · obtain ⟨j', hj', rfl⟩ := Option.map_eq_some_iff.mp hj
        have := h.ptrs i j' hj'
        split <;> omega
    · exact ((List.perm_insertIdx _ _ (Nat.le_of_lt hlt)).map _).trans (h.perm.cons _)

theorem RdeAspa.Holds.addSet {ra ra' : RdeAspa} {sets : List (ℕ × List ℕ)} (h : ra.Holds sets)
    {cas : ℕ} {pas : List ℕ} (heq : aspaAddSet ra cas pas = .ok ra') :
    ra'.Holds ((cas, pas) :: sets) ∧ ra'.maxset = ra.maxset ∧ ra'.maxdata = ra.maxdata := by
  unfold aspaAddSet at heq
  split_ifs at heq
  cases hins : ra.insertSet cas pas with
  | error e =>
    rw [hins] at heq
    cases heq
  | ok ra₁ =>
    obtain ⟨hh, hset, hdata⟩ := h.insertSet hins
    rw [hins] at heq
    simp only [bind, Except.bind] at heq
    split_ifs at heq
    cases heq
    exact ⟨⟨hh.ptrs, hh.perm⟩, hset, hdata⟩

/-- Inserting a list of sets adds them all. -/
theorem RdeAspa.Holds.foldlM {ra ra' : RdeAspa} {sets more : List (ℕ × List ℕ)} (h : ra.Holds sets)
    (heq : more.foldlM (fun ra set => aspaAddSet ra set.1 set.2) ra = .ok ra') :
    ra'.Holds (more.reverse ++ sets) ∧ ra'.maxset = ra.maxset ∧ ra'.maxdata = ra.maxdata := by
  induction more generalizing ra sets with
  | nil =>
    cases heq
    exact ⟨h, rfl, rfl⟩
  | cons set more ih =>
    rw [List.foldlM_cons] at heq
    cases hadd : aspaAddSet ra set.1 set.2 with
    | error e =>
      rw [hadd] at heq
      cases heq
    | ok ra₁ =>
      rw [hadd] at heq
      obtain ⟨h₁, hset, hdata⟩ := h.addSet hadd
      obtain ⟨h', hset', hdata'⟩ := ih h₁ heq
      refine ⟨?_, hset'.trans hset, hdata'.trans hdata⟩
      rw [List.reverse_cons, List.append_assoc]
      exact h'

/-- What is in the table after a transfer. -/
theorem aspaTransfer_spec {sets : List (ℕ × List ℕ)} {t : Option AspaTable}
    (h : aspaTransfer sets = .ok t) :
    (t = none ∧ sets = []) ∨ ∃ ta, t = some ta ∧ ta.ra.maxset = sets.length ∧
      ta.ra.maxdata = (sets.flatMap (·.2)).length ∧ ta.data = sets.flatMap (·.2) ∧
      (ta.ra.sets.map AspaSet.pair).Perm sets := by
  unfold aspaTransfer aspaFill aspaTablePrep at h
  by_cases hempty : sets.length = 0
  · rw [if_pos hempty] at h
    cases h
    exact Or.inl ⟨rfl, List.length_eq_zero_iff.mp hempty⟩
  · right
    rw [if_neg hempty] at h
    split_ifs at h with hmany
    · cases h
    · simp only [bind, Except.bind, pure, Except.pure] at h
      split at h
      · cases h
      · next ra hfold =>
        cases h
        have hnew : ∀ mask maxset maxdata,
            RdeAspa.Holds { mask := mask, maxset := maxset, maxdata := maxdata } [] := by
          intro mask maxset maxdata
          refine ⟨fun i k hk => ?_, List.Perm.refl _⟩
          cases hk
        obtain ⟨hh, hset, hdata⟩ := (hnew _ _ _).foldlM hfold
        refine ⟨_, rfl, hset, ?_, rfl, ?_⟩
        · show ra.maxdata = _
          rw [hdata]
          exact Nat.mul_div_cancel_left _ (by omega)
        · rw [List.append_nil] at hh
          exact hh.perm.trans (List.reverse_perm _)

/-- Customer and number of providers. -/
def setKey (x : ℕ × List ℕ) : ℕ × ℕ := (x.1, x.2.length)

/-- Sets in descending order are fixed by what is in them. -/
theorem setKeys_eq {l l' : List (ℕ × List ℕ)} (hl : l.Pairwise fun a b => b.1 < a.1)
    (hl' : l'.Pairwise fun a b => b.1 < a.1) (hperm : (l.map setKey).Perm (l'.map setKey)) :
    l.map setKey = l'.map setKey := by
  have hsorted : ∀ m : List (ℕ × List ℕ), m.Pairwise (fun a b => b.1 < a.1) →
      (m.map setKey).Pairwise fun a b => b.1 < a.1 := by
    intro m hm
    exact List.pairwise_map.mpr (hm.imp fun h => h)
  apply List.Perm.eq_of_pairwise _ (hsorted l hl) (hsorted l' hl') hperm
  intro a b _ _ hab hba
  omega

/-- If the sets were sent in descending order, tables that compare as equal are equal. -/
theorem aspaTableEqual_eq {l l' : List (ℕ × List ℕ)} (hl : l.Pairwise fun a b => b.1 < a.1)
    (hl' : l'.Pairwise fun a b => b.1 < a.1) {t t' : Option AspaTable}
    (h : aspaTransfer l = .ok t) (h' : aspaTransfer l' = .ok t')
    (heq : aspaTableEqual t t' = true) :
    t = t' := by
  suffices hsame : l = l' by
    rw [hsame, h'] at h
    cases h
    rfl
  rcases aspaTransfer_spec h with ⟨rfl, rfl⟩ | ⟨ta, rfl, hset, hmax, hdata, hperm⟩ <;>
    rcases aspaTransfer_spec h' with ⟨rfl, rfl⟩ | ⟨tb, rfl, hset', hmax', hdata', hperm'⟩
  · rfl
  · cases heq
  · cases heq
  · unfold aspaTableEqual at heq
    dsimp only at heq
    split_ifs at heq with hsize
    simp only [Bool.and_eq_true, List.all_eq_true, List.mem_range, decide_eq_true_eq] at heq
    obtain ⟨hnodes, hmem⟩ := heq
    rw [not_or, not_not, not_not] at hsize
    -- the nodes have the same customers and sizes, one by one
    have hlen : ta.ra.sets.length = tb.ra.sets.length := by
      have h₁ := hperm.length_eq
      have h₂ := hperm'.length_eq
      rw [List.length_map] at h₁ h₂
      omega
    have harray : ta.ra.sets.map (fun x => setKey x.pair) =
        tb.ra.sets.map (fun x => setKey x.pair) := by
      apply List.ext_getElem (by rw [List.length_map, List.length_map, hlen])
      intro i hi hi'
      rw [List.length_map] at hi hi'
      have hi₀ : i < ta.ra.maxset := by
        have h₁ := hperm.length_eq
        rw [List.length_map] at h₁
        omega
      have hn := hnodes i hi₀
      rw [List.getD_eq_getElem?_getD, List.getD_eq_getElem?_getD, List.getElem?_eq_getElem hi,
        List.getElem?_eq_getElem hi'] at hn
      rw [List.getElem_map, List.getElem_map]
      exact Prod.ext hn.1 hn.2
    -- the order of both lists is the same, so the lists are
    have hkeys : l.map setKey = l'.map setKey := by
      apply setKeys_eq hl hl'
      have hp := hperm.map setKey
      have hp' := hperm'.map setKey
      rw [List.map_map] at hp hp'
      apply (hp.symm.trans _).trans hp'
      exact List.Perm.of_eq harray
    -- with the sizes, the data area can be taken apart
    have hcustomers : l.map (·.1) = l'.map (·.1) := by
      have := congrArg (List.map Prod.fst) hkeys
      rwa [List.map_map, List.map_map] at this
    -- and the providers are cut from one data area
    have hproviders : l.map (·.2) = l'.map (·.2) := by
      rw [List.eq_iff_flatten_eq]
      constructor
      · rw [hdata, hdata'] at hmem
        rw [← List.flatMap_def, ← List.flatMap_def]
        rwa [List.take_of_length_le (by omega), List.take_of_length_le (by omega)] at hmem
      · have := congrArg (List.map Prod.snd) hkeys
        rw [List.map_map, List.map_map] at this
        rw [List.map_map, List.map_map]
        exact this
    rw [← List.zip_unzip l, ← List.zip_unzip l', List.unzip_eq_map, List.unzip_eq_map]
    simp only [hcustomers, hproviders]

end Bgpd.Rpki
