import Bgpd.Lib.Run
import Bgpd.Rpki.AspaFill
import Bgpd.Rtr.Merge

/-!
# The Tables in the RDE

Model of `rde_dispatch_imsg_rtr` in `rde.c`, which puts the messages of `rtr_recalc` together again.
The handlers rely on the totals of the first ASPA message, on the order of the customers and on sets
that have at least one provider; this shows that the messages are like that.

## Main results

- `recalcMsgs_eq`: totals, order and sets of the messages
- `rtr_recalc_intact`: the tables after a transfer
- `maxlen_is_lost`: of two ROAs with the same prefix and AS one is left
-/

namespace Bgpd.Rtr

open Lib
open Rpki (AnyRoa RoaHead RdeAspa AspaFatal trieRoaAdd aspaTablePrep aspaAddSet aspaFill aspaFill_ok
  aspaEntry roaTable roaTable_entry_iff NoneLost roaKey)

/-! ## The receiver -/

/-- The reasons for `fatal` and `fatalx`, and for a crash. -/
inductive TransferFatal where
  /-- "unexpected IMSG_RECONF_ASPA_PREP" -/
  | unexpectedPrep
  /-- "unexpected IMSG_RECONF_ASPA" -/
  | unexpectedAspa
  /-- "IMSG_RECONF_ASPA already sent" -/
  | aspaAlreadySent
  /-- "unexpected IMSG_RECONF_ASPA_TAS" -/
  | unexpectedTas
  /-- "IMSG_RECONF_ASPA_TAS bad len" -/
  | tasBadLen
  | nullPointer
  | table (reason : AspaFatal)
  deriving DecidableEq, Repr

/-- The `struct aspa_set` that is received. `tas` is a pointer. -/
structure AspaRecv where
  as : ℕ
  num : ℕ
  tas : Option (List ℕ) := none

/-- `roa_new`, `aspa_new` and `aspa`, and the tables at each `IMSG_RECONF_DONE`. -/
structure NewTables where
  roaNew : RoaHead := {}
  aspaNew : Option RdeAspa := none
  aspa : Option AspaRecv := none
  done : List (RoaHead × Option RdeAspa) := []

/-- `rde_dispatch_imsg_rtr`. A ROA that is not accepted is only reported. -/
def rdeDispatchImsgRtr (s : NewTables) : RdeMsg → Except TransferFatal NewTables
  -- clear new roa
  | .roaSet => .ok { s with roaNew := {} }
  | .roaItem roa => .ok { s with roaNew := (trieRoaAdd s.roaNew roa).getD s.roaNew }
  | .aspaPrep datasize entries =>
    if s.aspaNew.isSome then .error .unexpectedPrep
    else
      match aspaTablePrep entries datasize with
      | .error reason => .error (.table reason)
      | .ok ra => .ok { s with aspaNew := ra }
  | .aspa as num =>
    if s.aspaNew.isNone then .error .unexpectedAspa
    else if s.aspa.isSome then .error .aspaAlreadySent
    else .ok { s with aspa := some { as := as, num := num } }
  | .aspaTas tas =>
    match s.aspa with
    | none => .error .unexpectedTas
    | some aspa =>
      -- there is no data of length 0
      if tas.length = 0 ∨ tas.length ≠ aspa.num then .error .tasBadLen
      else .ok { s with aspa := some { aspa with tas := some tas } }
  | .aspaDone =>
    match s.aspaNew, s.aspa with
    | none, _ => .error .unexpectedAspa
    | some ra, some ⟨as, _, some tas⟩ =>
      match aspaAddSet ra as tas with
      | .error reason => .error (.table reason)
      | .ok ra => .ok { s with aspaNew := some ra, aspa := none }
    | _, _ => .error .nullPointer
  -- `rde_roa_reload` and `rde_aspa_reload` take the tables
  | .done => .ok { s with roaNew := {}, aspaNew := none, done := s.done ++ [(s.roaNew, s.aspaNew)] }

/-- The messages of a transfer. -/
def replay (s : NewTables) (msgs : List RdeMsg) : Except TransferFatal NewTables :=
  msgs.foldlM rdeDispatchImsgRtr s

/-! ## The messages -/

variable {conf : Static} {sources sources' : List RpkiData} {t : List AspaSet} {s : NewTables}

/-- The messages of a set. -/
def setMsgs (a : AspaSet) : List RdeMsg := [.aspa a.as a.tas.length, .aspaTas a.tas, .aspaDone]

/-- Messages with the right totals: the number of the sets, and the size of their providers. -/
def transferMsgs (roas : List AnyRoa) (sets : List AspaSet) : List RdeMsg :=
  let prep := RdeMsg.aspaPrep (4 * (sets.flatMap AspaSet.tas).length) sets.length
  RdeMsg.roaSet :: (roas.map RdeMsg.roaItem ++ prep :: (sets.flatMap setMsgs ++ [RdeMsg.done]))

/-- Sets that are not too large. -/
def sentAspas (t : List AspaSet) : List AspaSet :=
  (t.filter fun a => a.tas.length ≤ maxAspaSpasCount).reverse

theorem foldl_rtrAspaSetSize (t : List AspaSet) (ap : ℕ × ℕ) :
    t.foldl rtrAspaSetSize ap =
      (ap.1 + 4 * ((sentAspas t).flatMap AspaSet.tas).length, ap.2 + (sentAspas t).length) := by
  unfold sentAspas
  rw [List.length_reverse, ((List.reverse_perm _).flatMap_right _).length_eq]
  induction t generalizing ap with
  | nil => rfl
  | cons a t ih =>
    rw [List.foldl_cons, ih, rtrAspaSetSize]
    by_cases hsize : a.tas.length ≤ maxAspaSpasCount
    · rw [if_neg (not_lt.mpr hsize), List.filter_cons_of_pos (by simpa using hsize),
        List.flatMap_cons, List.length_append, List.length_cons]
      refine Prod.ext ?_ ?_
      · dsimp only
        ring
      · dsimp only
        ring
    · rw [if_pos (not_le.mp hsize), List.filter_cons_of_neg (by simpa using hsize)]

theorem flatMap_aspaMsgs (t : List AspaSet) :
    t.reverse.flatMap aspaMsgs = (sentAspas t).flatMap setMsgs := by
  unfold sentAspas
  rw [← List.filter_reverse]
  induction t.reverse with
  | nil => rfl
  | cons a t ih =>
    rw [List.flatMap_cons, ih, aspaMsgs]
    by_cases hsize : a.tas.length ≤ maxAspaSpasCount
    · rw [if_neg (not_lt.mpr hsize), List.filter_cons_of_pos (by simpa using hsize),
        List.flatMap_cons]
      rfl
    · rw [if_pos (not_le.mp hsize), List.filter_cons_of_neg (by simpa using hsize)]
      rfl

/-- The totals are those of the sets that follow. -/
theorem recalcMsgs_eq (conf : Static) (sources : List RpkiData) :
    recalcMsgs conf sources =
      transferMsgs (mergedRoas conf sources) (sentAspas (mergedAspas conf sources)) := by
  unfold recalcMsgs transferMsgs
  dsimp only
  rw [foldl_rtrAspaSetSize, flatMap_aspaMsgs, Nat.zero_add, Nat.zero_add]
  simp only [List.cons_append, List.append_assoc]

/-- Customers come in descending order. -/
theorem sentAspas_sorted (h : TreeSorted AspaSet.as t) :
    (sentAspas t).Pairwise fun a b => b.as < a.as :=
  List.pairwise_reverse.mpr (h.filter _)

theorem mem_sentAspas {a : AspaSet} :
    a ∈ sentAspas t ↔ a ∈ t ∧ a.tas.length ≤ maxAspaSpasCount := by
  unfold sentAspas
  rw [List.mem_reverse, List.mem_filter, decide_eq_true_eq]

/-! ## The transfer -/

theorem replay_append (s : NewTables) (msgs msgs' : List RdeMsg) :
    replay s (msgs ++ msgs') = (replay s msgs).bind fun s => replay s msgs' := List.foldlM_append ..

theorem replay_cons (s : NewTables) (msg : RdeMsg) (msgs : List RdeMsg) :
    replay s (msg :: msgs) = (rdeDispatchImsgRtr s msg).bind fun s => replay s msgs :=
  List.foldlM_cons

/-- The ROAs of a transfer. -/
theorem replay_roaItems (s : NewTables) (roas : List AnyRoa) :
    replay s (roas.map .roaItem) = .ok { s with
      roaNew := roas.foldl (fun th roa => (trieRoaAdd th roa).getD th) s.roaNew } := by
  induction roas generalizing s with
  | nil => rfl
  | cons roa roas ih =>
    rw [List.map_cons, replay_cons]
    exact ih { s with roaNew := (trieRoaAdd s.roaNew roa).getD s.roaNew }

/-- The three messages of a set. -/
theorem replay_set {ra ra' : RdeAspa} {a : AspaSet} (hra : s.aspaNew = some ra)
    (hrest : s.aspa = none)
    (htas : a.tas ≠ []) (hadd : aspaAddSet ra a.as a.tas = .ok ra') (msgs : List RdeMsg) :
    replay s (setMsgs a ++ msgs) =
      replay { s with aspaNew := some ra' } msgs := by
  obtain ⟨roaNew, aspaNew, aspa, done⟩ := s
  obtain rfl : aspaNew = some ra := hra
  obtain rfl : aspa = none := hrest
  have hlen : a.tas.length ≠ 0 := fun h => htas (List.length_eq_zero_iff.mp h)
  have htasMsg : ∀ s : NewTables, s.aspa = some ⟨a.as, a.tas.length, none⟩ →
      rdeDispatchImsgRtr s (.aspaTas a.tas) =
        .ok { s with aspa := some ⟨a.as, a.tas.length, some a.tas⟩ } := by
    intro s hs
    unfold rdeDispatchImsgRtr
    rw [hs]
    exact if_neg (not_or.mpr ⟨hlen, not_not.mpr rfl⟩)
  rw [setMsgs, List.cons_append, List.cons_append, List.cons_append, List.nil_append, replay_cons,
    show rdeDispatchImsgRtr ⟨roaNew, some ra, none, done⟩ (.aspa a.as a.tas.length) =
      .ok ⟨roaNew, some ra, some ⟨a.as, a.tas.length, none⟩, done⟩ from rfl]
  simp only [Except.bind]
  rw [replay_cons, htasMsg _ rfl]
  simp only [Except.bind]
  rw [replay_cons, rdeDispatchImsgRtr]
  dsimp only
  rw [hadd]
  rfl

/-- The sets of a transfer. -/
theorem replay_sets {ra ra' : RdeAspa} {sets : List AspaSet} (hra : s.aspaNew = some ra)
    (hrest : s.aspa = none) (htas : ∀ a ∈ sets, a.tas ≠ [])
    (hadd : (sets.map fun a => (a.as, a.tas)).foldlM (fun ra set => aspaAddSet ra set.1 set.2) ra =
      .ok ra') (msgs : List RdeMsg) :
    replay s (sets.flatMap setMsgs ++ msgs) = replay { s with aspaNew := some ra' } msgs := by
  induction sets generalizing s ra with
  | nil =>
    obtain rfl := Except.ok.inj hadd
    rw [← hra]
    rfl
  | cons a sets ih =>
    obtain ⟨ha, htas⟩ := List.forall_mem_cons.mp htas
    rw [List.map_cons, List.foldlM_cons] at hadd
    obtain ⟨ra₁, hadd₁, hrest₁⟩ := except_bind_ok hadd
    rw [List.flatMap_cons, List.append_assoc, replay_set hra hrest ha hadd₁]
    exact ih rfl hrest htas hrest₁

/-- The ASPA part of a transfer. -/
theorem replay_aspas {sets : List AspaSet} {ta : Option RdeAspa} (hnew : s.aspaNew = none)
    (hrest : s.aspa = none) (htas : ∀ a ∈ sets, a.tas ≠ [])
    (hfill : aspaFill sets.length (4 * (sets.flatMap AspaSet.tas).length)
      (sets.map fun a => (a.as, a.tas)) = .ok ta) (msgs : List RdeMsg) :
    replay s (RdeMsg.aspaPrep (4 * (sets.flatMap AspaSet.tas).length) sets.length ::
      (sets.flatMap setMsgs ++ msgs)) = replay { s with aspaNew := ta } msgs := by
  obtain ⟨prep, hprep, hfill⟩ := except_bind_ok hfill
  have hmsg : rdeDispatchImsgRtr s (.aspaPrep (4 * (sets.flatMap AspaSet.tas).length) sets.length) =
      .ok { s with aspaNew := prep } := by
    unfold rdeDispatchImsgRtr
    dsimp only
    rw [hnew, if_neg (by simp), hprep]
  rw [replay_cons, hmsg]
  simp only [Except.bind]
  cases prep with
  | none =>
    obtain rfl := Except.ok.inj hfill
    have hempty : sets = [] := by
      unfold aspaTablePrep at hprep
      split_ifs at hprep with hlen
      · exact List.length_eq_zero_iff.mp hlen
      · cases Except.ok.inj hprep
    rw [hempty]
    rfl
  | some ra =>
    obtain ⟨ra', hfold, hta⟩ := except_bind_ok hfill
    obtain rfl := Except.ok.inj hta
    exact replay_sets (s := { s with aspaNew := some ra }) rfl hrest htas hfold msgs

/-- The customers whose sets are sent. -/
def sentCustomers (l : List AspaSet) : Finset ℕ :=
  (l.map AspaSet.as).toFinset.filter fun cas => (unionTas l cas).card ≤ maxAspaSpasCount

/-- The sets that are sent. -/
theorem MergedFrom.mem_sentAspas {l : List AspaSet} (h : MergedFrom l t) {a : AspaSet} :
    a ∈ sentAspas t ↔ a.as ∈ sentCustomers l ∧ a.tas = (unionTas l a.as).sort := by
  unfold sentCustomers
  rw [Rtr.mem_sentAspas, h.mem_iff, Finset.mem_filter, List.mem_toFinset, List.mem_map]
  constructor
  · rintro ⟨⟨hcas, htas⟩, hsize⟩
    rw [htas, Finset.length_sort] at hsize
    exact ⟨⟨hcas, hsize⟩, htas⟩
  · rintro ⟨⟨hcas, hsize⟩, htas⟩
    refine ⟨⟨hcas, htas⟩, ?_⟩
    rwa [htas, Finset.length_sort]

theorem MergedFrom.length_sentAspas {l : List AspaSet} (h : MergedFrom l t) :
    (sentAspas t).length = (sentCustomers l).card := by
  have hnodup : ((sentAspas t).map AspaSet.as).Nodup :=
    List.pairwise_map.mpr ((sentAspas_sorted h.sorted).imp fun hlt => hlt.ne')
  have hset : ((sentAspas t).map AspaSet.as).toFinset = sentCustomers l := by
    apply Finset.ext
    intro cas
    rw [List.mem_toFinset, List.mem_map]
    constructor
    · rintro ⟨a, ha, rfl⟩
      exact (h.mem_sentAspas.mp ha).1
    · intro hcas
      exact ⟨⟨cas, (unionTas l cas).sort⟩, h.mem_sentAspas.mpr ⟨hcas, rfl⟩, rfl⟩
  rw [← hset, List.toFinset_card_of_nodup hnodup, List.length_map]

/-- No set that is sent is empty. -/
theorem MergedFrom.sent_ne_nil {l : List AspaSet} (h : MergedFrom l t)
    (htas : ∀ a ∈ l, a.tas ≠ []) :
    ∀ a ∈ sentAspas t, a.tas ≠ [] := by
  intro a ha hnil
  obtain ⟨hmem, -⟩ := Rtr.mem_sentAspas.mp ha
  obtain ⟨b, hb, hcas⟩ := (h.customers a.as).mp ⟨a, hmem, rfl⟩
  obtain ⟨p, hp⟩ := List.exists_mem_of_ne_nil _ (htas b hb)
  have hin := (h.tas a hmem p).mpr ⟨b, hb, hcas, hp⟩
  rw [hnil] at hin
  cases hin

theorem recalcMsgs_perm (h : sources.Perm sources') :
    recalcMsgs conf sources = recalcMsgs conf sources' := by
  unfold recalcMsgs
  rw [mergedRoas_perm h, mergedAspas_perm h]

/-- The messages of `rtr_recalc` in the RDE. -/
theorem replay_recalcMsgs (conf : Static) (sources : List RpkiData) (hnew : s.aspaNew = none)
    (hrest : s.aspa = none) (htas : ∀ a ∈ allAspas conf sources, a.tas ≠ [])
    (hmany : (sentCustomers (allAspas conf sources)).card ≤ (2 ^ 32 - 1) / 2) :
    ∃ ta, replay s (recalcMsgs conf sources) =
        .ok { s with roaNew := {}, done := s.done ++ [(roaTable (mergedRoas conf sources), ta)] } ∧
      ∀ cas pas, aspaEntry ta cas = some pas ↔
        cas ∈ sentCustomers (allAspas conf sources) ∧
          pas = (unionTas (allAspas conf sources) cas).sort := by
  have hspec := mergedAspas_spec conf sources
  have hsorted := sentAspas_sorted hspec.sorted
  rw [recalcMsgs_eq]
  generalize hsets : sentAspas (mergedAspas conf sources) = sets at hsorted
  have hmem : ∀ a, a ∈ sets ↔ a.as ∈ sentCustomers (allAspas conf sources) ∧
      a.tas = (unionTas (allAspas conf sources) a.as).sort := by
    intro a
    rw [← hsets, hspec.mem_sentAspas]
  have hne : ∀ a ∈ sets, a.tas ≠ [] := by
    rw [← hsets]
    exact hspec.sent_ne_nil htas
  have hpairs : ((sets.map fun a => (a.as, a.tas)).flatMap Prod.snd) = sets.flatMap AspaSet.tas :=
    List.flatMap_map ..
  obtain ⟨ta, hfill, hentry⟩ := aspaFill_ok (sets.map fun a => (a.as, a.tas))
    (List.pairwise_map.mpr hsorted)
    (by rw [List.length_map, ← hsets, hspec.length_sentAspas]; exact hmany)
  rw [List.length_map, hpairs] at hfill
  refine ⟨ta, ?_, fun cas pas => ?_⟩
  · rw [transferMsgs, replay_cons]
    change replay { s with roaNew := {} } _ = _
    rw [replay_append, replay_roaItems]
    simp only [Except.bind]
    refine (replay_aspas (s := { s with roaNew := roaTable (mergedRoas conf sources) }) hnew hrest
      hne hfill _).trans ?_
    obtain ⟨roaNew, aspaNew, aspa, done⟩ := s
    obtain rfl : aspaNew = none := hnew
    rfl
  · rw [hentry, List.mem_map]
    constructor
    · rintro ⟨a, ha, heq⟩
      obtain ⟨rfl, rfl⟩ := Prod.mk.inj heq
      exact (hmem a).mp ha
    · rintro ⟨hcas, rfl⟩
      exact ⟨⟨cas, _⟩, (hmem _).mpr ⟨hcas, rfl⟩, rfl⟩

/-- The ROA table of all sources. -/
theorem mergedRoas_entry_iff (hlen : ∀ r ∈ allRoas conf sources, r.prefixlen ≤ r.addr.bits)
    (hlost : NoneLost (allRoas conf sources)) (r : AnyRoa) :
    (roaTable (mergedRoas conf sources)).Entry r ↔
      (∃ r' ∈ allRoas conf sources, r'.masked = r) ∧
        ∀ r' ∈ allRoas conf sources, r'.masked.SameKey r → r'.maxlen ≤ r.maxlen := by
  have hunion : ∀ r, r ∈ mergedRoas conf sources ↔ r ∈ allRoas conf sources :=
    fun r => mem_mergedRoas
  have hentry := roaTable_entry_iff (mergedRoas_sorted conf sources)
    (fun r hr => hlen r ((hunion r).mp hr)) (hlost.congr fun r => (hunion r).symm) r
  simpa only [hunion] using hentry

/-- The tables of the RDE are those of all sources. A ROA is in its table if none with the same
    prefix and AS has a larger length, and each customer with at most `MAX_ASPA_SPAS_COUNT`
    providers has exactly these in order. -/
theorem rtr_recalc_intact (conf : Static) (sources : List RpkiData) (s : NewTables)
    (hnew : s.aspaNew = none) (hrest : s.aspa = none)
    (hlen : ∀ r ∈ allRoas conf sources, r.prefixlen ≤ r.addr.bits)
    (hlost : NoneLost (allRoas conf sources))
    (htas : ∀ a ∈ allAspas conf sources, a.tas ≠ [])
    (hmany : (sentCustomers (allAspas conf sources)).card ≤ (2 ^ 32 - 1) / 2) :
    (∃ th ta, replay s (recalcMsgs conf sources) =
        .ok { s with roaNew := {}, done := s.done ++ [(th, ta)] } ∧
      (∀ r, th.Entry r ↔ (∃ r' ∈ allRoas conf sources, r'.masked = r) ∧
        ∀ r' ∈ allRoas conf sources, r'.masked.SameKey r → r'.maxlen ≤ r.maxlen) ∧
      ∀ cas pas, aspaEntry ta cas = some pas ↔
        cas ∈ sentCustomers (allAspas conf sources) ∧
          pas = (unionTas (allAspas conf sources) cas).sort) ∧
    (∃ sets : List AspaSet, sets.Pairwise (fun a b => b.as < a.as) ∧
      recalcMsgs conf sources = transferMsgs (mergedRoas conf sources) sets) ∧
    ∀ sources', sources.Perm sources' → recalcMsgs conf sources' = recalcMsgs conf sources := by
  obtain ⟨ta, hreplay, haspas⟩ := replay_recalcMsgs (s := s) conf sources hnew hrest htas hmany
  refine ⟨⟨_, ta, hreplay, mergedRoas_entry_iff hlen hlost, haspas⟩, ?_, fun sources' h => ?_⟩
  · exact ⟨_, sentAspas_sorted (mergedAspas_spec conf sources).sorted, recalcMsgs_eq conf sources⟩
  · exact (recalcMsgs_perm h).symm

/-! ## An example -/

/-- 10.0.0.0/8 for AS 64500, with the lengths 12 and 16. -/
def shortRoa : AnyRoa := .v4 ⟨0x0a000000, 8, 12, 64500⟩

def longRoa : AnyRoa := .v4 ⟨0x0a000000, 8, 16, 64500⟩

/-- The configuration has the ROA with the shorter length, and a provider of AS 64500. -/
def sampleStatic : Static := { roa := [(shortRoa, 0)], aspa := [(⟨64500, [3]⟩, 0)] }

/-- A session has the other ROA and another provider. -/
def sampleData : RpkiData := { roaSet := [longRoa], aspa := [⟨64500, [2]⟩] }

/-- The hypotheses hold of these sources. -/
theorem sample_ok :
    (∀ r ∈ allRoas sampleStatic [sampleData], r.prefixlen ≤ r.addr.bits) ∧
      NoneLost (allRoas sampleStatic [sampleData]) ∧
      (∀ a ∈ allAspas sampleStatic [sampleData], a.tas ≠ []) ∧
      sentCustomers (allAspas sampleStatic [sampleData]) = {64500} := by
  refine ⟨by decide, Rpki.noneLost_of_masked ?_, by decide, by decide⟩
  intro r hr
  rcases List.mem_cons.mp hr with rfl | hr
  · rfl
  · rw [List.mem_singleton.mp hr]
    rfl

theorem rtr_recalc_intact_sample :
    ∃ th ta, replay {} (recalcMsgs sampleStatic [sampleData]) = .ok { done := [(th, ta)] } ∧
      th.Entry longRoa ∧ aspaEntry ta 64500 = some [2, 3] := by
  obtain ⟨hlen, hlost, htas, hsent⟩ := sample_ok
  have hunion : unionTas (allAspas sampleStatic [sampleData]) 64500 = {2, 3} := by decide
  obtain ⟨⟨th, ta, hreplay, hroas, haspas⟩, -⟩ := rtr_recalc_intact sampleStatic [sampleData] {} rfl
    rfl hlen hlost htas (by rw [hsent]; decide)
  refine ⟨th, ta, hreplay, (hroas _).mpr ⟨⟨longRoa, ?_, rfl⟩, fun r hr _ => ?_⟩, ?_⟩
  · exact List.mem_cons_of_mem _ List.mem_cons_self
  · have hmax : ∀ r ∈ allRoas sampleStatic [sampleData], r.maxlen ≤ longRoa.maxlen := by decide
    exact hmax r hr
  · rw [haspas, hsent, hunion]
    refine ⟨Finset.mem_singleton_self _, ?_⟩
    exact eq_of_sorted (k := id) (by simp [TreeSorted]) (Finset.sortedLT_sort _).pairwise (by simp)

/-- The ROA with the shorter length is in a source, but not in the table. -/
theorem maxlen_is_lost :
    ∃ th ta, replay {} (recalcMsgs sampleStatic [sampleData]) = .ok { done := [(th, ta)] } ∧
      shortRoa ∈ allRoas sampleStatic [sampleData] ∧ ¬th.Entry shortRoa := by
  obtain ⟨hlen, hlost, htas, hsent⟩ := sample_ok
  obtain ⟨ta, hreplay, -⟩ := replay_recalcMsgs (s := {}) sampleStatic [sampleData] rfl rfl htas
    (by rw [hsent]; decide)
  refine ⟨_, ta, hreplay, List.mem_cons_self, fun hentry => ?_⟩
  have hmax := ((mergedRoas_entry_iff hlen hlost _).mp hentry).2 longRoa
    (List.mem_cons_of_mem _ List.mem_cons_self) ⟨rfl, rfl, rfl⟩
  exact absurd hmax (by decide)

end Bgpd.Rtr
