import Mathlib.Data.List.GetD
import Bgpd.Rpki.AspaFill

/-!
# Answers of an ASPA Table

`aspa_cp_lookup` looks a customer up and searches the list of its providers: one by one if there
are few of them, by halves otherwise. For ascending lists both searches find exactly what is in
the list, so the table answers what was put in, and `aspa_table_equal` compares what was put in.

## Main results

- `aspaSearch_eq`, `aspaBsearch_eq`: the two searches
- `aspaTransfer_answers`: the answers of a table, and the comparison of two tables
-/

namespace Bgpd.Rpki

variable {l : List ℕ} {pas : ℕ}

/-! ## Searches -/

/-- What a search for a provider should say. -/
def cpState (l : List ℕ) (pas : ℕ) : CpState := if pas ∈ l then .provider else .notProvider

/-- The search for few providers. -/
theorem aspaSearch_eq (hl : l.Pairwise (· < ·)) : aspaSearch pas l = cpState l pas := by
  induction l with
  | nil => rfl
  | cons x l ih =>
    obtain ⟨hx, hl⟩ := List.pairwise_cons.mp hl
    rw [aspaSearch, ih hl, cpState, cpState]
    rcases lt_trichotomy x pas with hlt | rfl | hgt
    · have hmem : pas ∈ x :: l ↔ pas ∈ l := List.mem_cons.trans (or_iff_right hlt.ne')
      simp only [hlt.ne, hlt.not_gt, if_false, hmem]
    · simp
    · -- all later providers are bigger still
      have hmem : pas ∉ x :: l := fun hmem => by
        rcases List.mem_cons.mp hmem with rfl | hmem
        · exact lt_irrefl _ hgt
        · exact lt_asymm hgt (hx pas hmem)
      rw [if_neg hgt.ne', if_pos hgt, if_neg hmem]

/-- The binary search looks at `lim` elements from `i` on, and those elsewhere are too small or
    too big. -/
theorem aspaBsearch_eq (hl : l.Pairwise (· < ·)) (fuel i lim : ℕ) (hfuel : lim < fuel)
    (hlim : i + lim ≤ l.length) (hlow : ∀ j, (hj : j < l.length) → j < i → l[j] < pas)
    (hhigh : ∀ j, (hj : j < l.length) → i + lim ≤ j → pas < l[j]) :
    aspaBsearch l pas fuel i lim = cpState l pas := by
  induction fuel generalizing i lim with
  | zero => exact absurd hfuel (Nat.not_lt_zero _)
  | succ fuel ih =>
    have hmono : ∀ {j k : ℕ} (hj : j < l.length) (hk : k < l.length), j ≤ k → l[j] ≤ l[k] := by
      intro j k hj hk hjk
      rcases hjk.lt_or_eq with hlt | rfl
      · exact (List.pairwise_iff_getElem.mp hl j k hj hk hlt).le
      · exact le_refl _
    rw [aspaBsearch]
    by_cases hzero : lim = 0
    · -- nothing is left to look at
      rw [if_pos hzero, cpState, if_neg]
      intro hmem
      obtain ⟨j, hj, rfl⟩ := List.getElem_of_mem hmem
      rcases Nat.lt_or_ge j i with hji | hij
      · exact lt_irrefl _ (hlow j hj hji)
      · exact lt_irrefl _ (hhigh j hj (by omega))
    · have hx : i + lim / 2 < l.length := by omega
      have hget : l.getD (i + lim / 2) 0 = l[i + lim / 2] := List.getD_eq_getElem _ _ hx
      rw [if_neg hzero, hget]
      split_ifs with heq hlt
      · rw [cpState, if_pos]
        rw [← heq]
        exact List.getElem_mem hx
      · refine ih _ _ (by omega) (by omega) (fun j hj hji => ?_) fun j hj hij =>
          hhigh j hj (by omega)
        exact (hmono hj hx (by omega)).trans_lt hlt
      · refine ih _ _ (by omega) (by omega) hlow fun j hj hij => ?_
        exact (by omega : pas < l[i + lim / 2]).trans_le (hmono hx hj hij)

/-- `aspa_cp_lookup` finds the customer and searches its providers. -/
theorem aspaCpLookup_eq {ra : RdeAspa} {cas : ℕ}
    (hl : ∀ s ∈ aspaLookup ra cas, s.pas.Pairwise (· < ·)) (pas : ℕ) :
    aspaCpLookup ra cas pas =
      ((aspaLookup ra cas).map fun s => cpState s.pas pas).getD .unknown := by
  unfold aspaCpLookup
  cases hs : aspaLookup ra cas with
  | none => rfl
  | some s =>
    have hsorted := hl s hs
    rw [Option.map_some, Option.getD_some]
    dsimp only
    split_ifs
    · exact aspaSearch_eq hsorted
    · exact aspaBsearch_eq hsorted _ 0 _ (Nat.lt_succ_self _) (by omega) (fun _ _ h => nomatch h)
        fun j hj hij => absurd hij (by omega)

/-! ## Tables -/

/-- The sets of a transfer: customers in descending order, with ascending providers. -/
structure AspaSetsOk (sets : List (ℕ × List ℕ)) : Prop where
  customers : sets.Pairwise fun a b => b.1 < a.1
  providers : ∀ x ∈ sets, x.2 ≠ [] ∧ x.2.Pairwise (· < ·)
  many : sets.length ≤ (2 ^ 32 - 1) / 2

/-- There is one set for a customer at most. -/
theorem AspaSetsOk.unique {sets : List (ℕ × List ℕ)} (h : AspaSetsOk sets) {x y : ℕ × List ℕ}
    (hx : x ∈ sets) (hy : y ∈ sets) (heq : x.1 = y.1) : x = y := by
  have hnodup : (sets.map Prod.fst).Nodup :=
    List.pairwise_map.mpr (h.customers.imp fun hlt => hlt.ne')
  exact List.inj_on_of_nodup_map hnodup hx hy heq

/-- Sets in descending order are fixed by what is in them. -/
theorem AspaSetsOk.eq {sets sets' : List (ℕ × List ℕ)} (h : AspaSetsOk sets)
    (h' : AspaSetsOk sets') (hmem : ∀ x, x ∈ sets ↔ x ∈ sets') : sets = sets' := by
  have hnd : ∀ {l : List (ℕ × List ℕ)}, AspaSetsOk l → l.Nodup := fun hl =>
    hl.customers.imp fun hlt heq => hlt.ne' (congrArg Prod.fst heq)
  have hperm : sets.Perm sets' := (List.perm_ext_iff_of_nodup (hnd h) (hnd h')).mpr hmem
  exact hperm.eq_of_pairwise (fun a b _ _ hab hba => absurd hab hba.not_gt) h.customers h'.customers

/-- The transfer makes a table in which each set is found. -/
theorem aspaTransfer_ok {sets : List (ℕ × List ℕ)} (h : AspaSetsOk sets) :
    ∃ t, aspaTransfer sets = .ok t ∧
      ∀ cas pas, aspaEntry (t.map AspaTable.ra) cas = some pas ↔ (cas, pas) ∈ sets := by
  obtain ⟨t, ht, hentry⟩ := aspaFill_ok sets h.customers h.many
  refine ⟨_, by rw [aspaTransfer, ht]; rfl, fun cas pas => ?_⟩
  rw [← hentry cas pas, Option.map_map]
  cases t <;> rfl

/-- The answers of a table are those of its sets. -/
theorem aspaCpLookup_entry {sets : List (ℕ × List ℕ)} (h : AspaSetsOk sets) {ta : AspaTable}
    (hentry : ∀ cas pas, aspaEntry (some ta.ra) cas = some pas ↔ (cas, pas) ∈ sets)
    (cas pas : ℕ) :
    (aspaCpLookup ta.ra cas pas = .unknown ↔ ∀ l, (cas, l) ∉ sets) ∧
      (aspaCpLookup ta.ra cas pas = .provider ↔ ∃ l, (cas, l) ∈ sets ∧ pas ∈ l) ∧
      (aspaCpLookup ta.ra cas pas = .notProvider ↔ ∃ l, (cas, l) ∈ sets ∧ pas ∉ l) := by
  have hfound : ∀ s ∈ aspaLookup ta.ra cas, (cas, s.pas) ∈ sets := fun s hs => by
    rw [← hentry, aspaEntry, Option.bind_some, Option.mem_def.mp hs]
    rfl
  rw [aspaCpLookup_eq (fun s hs => (h.providers _ (hfound s hs)).2)]
  cases hs : aspaLookup ta.ra cas with
  | none =>
    have hno : ∀ l, (cas, l) ∉ sets := fun l hl => by
      rw [← hentry, aspaEntry, Option.bind_some, hs] at hl
      cases hl
    refine ⟨iff_of_true rfl hno, iff_of_false (fun hc => nomatch hc) ?_,
      iff_of_false (fun hc => nomatch hc) ?_⟩
    · exact fun ⟨l, hl, _⟩ => hno l hl
    · exact fun ⟨l, hl, _⟩ => hno l hl
  | some s =>
    have hmem := hfound s hs
    have hone : ∀ {l}, (cas, l) ∈ sets → l = s.pas := fun hl =>
      congrArg Prod.snd (h.unique hl hmem rfl)
    rw [Option.map_some, Option.getD_some, cpState]
    by_cases hp : pas ∈ s.pas
    · rw [if_pos hp]
      refine ⟨iff_of_false (fun hc => nomatch hc) fun hno => hno _ hmem,
        iff_of_true rfl ⟨s.pas, hmem, hp⟩, iff_of_false (fun hc => nomatch hc) ?_⟩
      rintro ⟨l, hl, hnot⟩
      rw [hone hl] at hnot
      exact hnot hp
    · rw [if_neg hp]
      refine ⟨iff_of_false (fun hc => nomatch hc) fun hno => hno _ hmem,
        iff_of_false (fun hc => nomatch hc) ?_, iff_of_true rfl ⟨s.pas, hmem, hp⟩⟩
      rintro ⟨l, hl, hin⟩
      rw [hone hl] at hin
      exact hp hin

theorem aspaTableEqual_self (t : Option AspaTable) : aspaTableEqual t t = true := by
  cases t <;> simp [aspaTableEqual]

/-- **The ASPA table answers what was put in.** A transfer in order makes a table, which is `NULL`
    exactly for no sets at all. Its answers are those of the sets, and two tables compare as equal
    exactly when the sets of each customer are the same. -/
theorem aspaTransfer_answers {sets : List (ℕ × List ℕ)} (h : AspaSetsOk sets) :
    ∃ t, aspaTransfer sets = .ok t ∧ (t = none ↔ sets = []) ∧
      (∀ ta ∈ t, ∀ cas pas,
        (aspaCpLookup ta.ra cas pas = .unknown ↔ ∀ l, (cas, l) ∉ sets) ∧
        (aspaCpLookup ta.ra cas pas = .provider ↔ ∃ l, (cas, l) ∈ sets ∧ pas ∈ l) ∧
        (aspaCpLookup ta.ra cas pas = .notProvider ↔ ∃ l, (cas, l) ∈ sets ∧ pas ∉ l)) ∧
      ∀ sets' t', AspaSetsOk sets' → aspaTransfer sets' = .ok t' →
        (aspaTableEqual t t' = true ↔ ∀ cas l, (cas, l) ∈ sets ↔ (cas, l) ∈ sets') := by
  obtain ⟨t, ht, hentry⟩ := aspaTransfer_ok h
  refine ⟨t, ht, ?_, fun ta hta => ?_, fun sets' t' h' ht' => ⟨fun heq cas l => ?_, fun hmem => ?_⟩⟩
  · rcases aspaTransfer_spec ht with ⟨rfl, rfl⟩ | ⟨ta, rfl, hset, -, -, -⟩
    · simp
    · refine iff_of_false (fun hc => nomatch hc) ?_
      rintro rfl
      cases ht
  · rw [Option.mem_def.mp hta] at hentry
    exact aspaCpLookup_entry h hentry
  · obtain rfl := aspaTableEqual_eq h.customers h'.customers ht ht' heq
    obtain ⟨t₁, ht₁, hentry'⟩ := aspaTransfer_ok h'
    rw [ht'] at ht₁
    obtain rfl := Except.ok.inj ht₁
    rw [← hentry, ← hentry']
  · obtain rfl := h.eq h' fun x => hmem x.1 x.2
    rw [ht] at ht'
    obtain rfl := Except.ok.inj ht'
    exact aspaTableEqual_self t

/-- A customer with many providers and one with few. -/
def sampleSets : List (ℕ × List ℕ) := [(65007, (List.range 20).map (· + 100)), (65003, [1, 5])]

theorem aspaTransfer_answers_sample : ∃ ta, aspaTransfer sampleSets = .ok (some ta) ∧
    aspaCpLookup ta.ra 65007 119 = .provider ∧ aspaCpLookup ta.ra 65007 120 = .notProvider ∧
    aspaCpLookup ta.ra 65003 5 = .provider ∧ aspaCpLookup ta.ra 65004 1 = .unknown := by
  have hok : AspaSetsOk sampleSets := ⟨by decide, by decide, by decide⟩
  obtain ⟨t, ht, hnone, hans, -⟩ := aspaTransfer_answers hok
  obtain ⟨ta, rfl⟩ := Option.ne_none_iff_exists'.mp fun hn => by
    have := hnone.mp hn
    cases this
  refine ⟨ta, ht, ?_, ?_, ?_, ?_⟩
  · exact ((hans ta rfl 65007 119).2.1).mpr ⟨_, List.mem_cons_self, by decide⟩
  · exact ((hans ta rfl 65007 120).2.2).mpr ⟨_, List.mem_cons_self, by decide⟩
  · exact ((hans ta rfl 65003 5).2.1).mpr ⟨[1, 5], by simp [sampleSets], by decide⟩
  · refine ((hans ta rfl 65004 1).1).mpr fun l hl => ?_
    simp [sampleSets] at hl

end Bgpd.Rpki
