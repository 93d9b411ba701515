import Bgpd.Rde.DecideCanon

/-!
# What a Change of the List Reports

`prefix_evaluate` and `prefix_evaluate_nexthop` change the list of a RIB entry and report some
of the changes to the peers. This module says what is not reported: as long as no change of
the best path is reported it is the same one, and as long as `rde evaluate all` is on the
eligible paths whose path ids are not reported are the same ones.

## Main results

- `prefixInsert_ineligible`, `prefixRemove_ineligible`: the eligible paths are left alone
- `Evaluated`: what may be concluded from what is reported
- `prefixEvaluate_evaluated`, `prefixEvaluateNexthop_evaluated`
-/

namespace Bgpd.Rde

variable {c : DecideCtx}

/-! ## Changes behind the eligible paths -/

/-- The eligible paths of a list. -/
def eligibles (h : List Prefix) : List Prefix := h.filter prefixEligible

/-- Set the metric of the element with an address. -/
def setMetric (q : Ptr) (d : ℤ) (x : Prefix) : Prefix :=
  if x.ptr = q then { x with dmetric := d } else x

theorem setMetric_ptr (q : Ptr) (d : ℤ) (x : Prefix) : (setMetric q d x).ptr = x.ptr := by
  unfold setMetric
  split_ifs <;> rfl

theorem setMetric_eligible (q : Ptr) (d : ℤ) (x : Prefix) :
    prefixEligible (setMetric q d x) = prefixEligible x := by
  unfold setMetric
  split_ifs <;> rfl

theorem prefixSetDmetric_eq (h : List Prefix) (pp : Option Prefix) (n : Prefix) :
    ∃ d, prefixSetDmetric c h pp (some n) = h.map (setMetric n.ptr d) := ⟨_, rfl⟩

theorem eligibles_setMetric {h : List Prefix} {q : Ptr} (d : ℤ)
    (hq : ∀ x ∈ h, x.ptr = q → prefixEligible x = false) :
    eligibles (h.map (setMetric q d)) = eligibles h := by
  unfold eligibles
  rw [List.filter_map]
  have hcomp : prefixEligible ∘ setMetric q d = prefixEligible := funext (setMetric_eligible q d)
  rw [hcomp]
  refine (List.map_congr_left fun x hx => ?_).trans (List.map_id _)
  obtain ⟨hx, hel⟩ := List.mem_filter.mp hx
  refine if_neg fun hptr => ?_
  rw [hq x hx hptr] at hel
  cases hel

/-- The scan for an ineligible path goes behind the last eligible one. -/
theorem insertScan_ineligible {new : Prefix} (hn : prefixEligible new = false) {E I : List Prefix}
    (hE : ∀ x ∈ E, prefixEligible x) (hI : ∀ x ∈ I.head?, prefixEligible x = false)
    (h : List Prefix) (p : Option Prefix) :
    insertScan c new (E ++ I) { h := h, insertp := p } =
      { h := h, insertp := E.getLast?.or p } := by
  induction E generalizing p with
  | nil =>
    cases I with
    | nil => rfl
    | cons y I =>
      have hy := prefixCmp_ineligible_right (c := c) new (hI y rfl)
      rw [List.nil_append, insertScan, hy]
      rfl
  | cons x E ih =>
    have hx := prefixCmp_ineligible_left (c := c) hn (hE x (List.mem_cons_self ..))
    have hrest := ih (fun y hy => hE y (List.mem_cons_of_mem _ hy)) (some x)
    rw [List.cons_append, insertScan, hx]
    simp only [InsertScan.fixup]
    have hlast : (x :: E).getLast?.or p = E.getLast?.or (some x) := by
      cases E with
      | nil => rfl
      | cons y E =>
        rw [List.getLast?_cons_cons, List.getLast?_eq_some_getLast (List.cons_ne_nil y E)]
        rfl
    rw [hlast, ← hrest]
    rfl

/-- Inserting an ineligible path leaves the eligible ones alone. -/
theorem prefixInsert_ineligible {new : Prefix} {h : List Prefix}
    (hn : prefixEligible new = false) (hnd : ((new :: h).map (·.ptr)).Nodup)
    (hf : EligibleFirst h) : eligibles (prefixInsert c new none h) = eligibles h := by
  set E := h.filter prefixEligible with hEdef
  set I := h.filter (fun x => !prefixEligible x) with hIdef
  have hsplit : h = E ++ I := hf.split
  have hE : ∀ x ∈ E, prefixEligible x := fun x hx => (List.mem_filter.mp hx).2
  have hI : ∀ x ∈ I, prefixEligible x = false := fun x hx => by
    simpa using (List.mem_filter.mp hx).2
  -- the scan passes all eligible paths and stops behind them
  have hscan : insertScan c new h { h := h, insertp := none } =
      { h := h, insertp := E.getLast? } := by
    have := insertScan_ineligible (c := c) hn hE
        (fun x hx => hI x (List.mem_of_mem_head? hx)) h none
    rw [← hsplit] at this
    rw [this, Option.or_none]
  have hnd' : ((new :: (E ++ I)).map (·.ptr)).Nodup := by rwa [← hsplit]
  -- so the new path stands between the two parts
  have hplace : insertAtPoint h E.getLast? new = E ++ new :: I := by
    rw [hsplit]
    cases hlast : E.getLast? with
    | none =>
      rw [List.getLast?_eq_none_iff] at hlast
      rw [hlast]
      rfl
    | some e =>
      obtain ⟨X, hX⟩ := List.getLast?_eq_some_iff.mp hlast
      rw [hX, List.append_assoc, List.singleton_append]
      have hmid : ((X ++ e :: I).map (·.ptr)).Nodup := by
        have := (List.nodup_cons.mp hnd').2
        rw [hX, List.append_assoc, List.singleton_append] at this
        exact this
      rw [insertAtPoint, tailqInsertAfter_middle hmid, List.append_assoc, List.singleton_append]
  have hmid : ((E ++ new :: I).map (·.ptr)).Nodup := by
    rw [List.map_append, List.map_cons, List.nodup_middle, ← List.map_append, ← List.map_cons]
    exact hnd'
  -- the two elements whose metric is set are ineligible
  have hset : ∀ n : Prefix, n.ptr ∈ (new :: I).map (·.ptr) →
      ∀ x ∈ E ++ new :: I, x.ptr = n.ptr → prefixEligible x = false := by
    intro n hmem x hx hptr
    rcases List.mem_append.mp hx with hx | hx
    · exfalso
      rw [List.map_append, List.nodup_append] at hmid
      exact hmid.2.2 x.ptr (List.mem_map_of_mem hx) n.ptr hmem hptr
    · rcases List.mem_cons.mp hx with rfl | hx
      · exact hn
      · exact hI x hx
  have helig : eligibles (E ++ new :: I) = eligibles h := by
    unfold eligibles
    rw [List.filter_append, List.filter_cons, hn, List.filter_eq_self.mpr hE,
      List.filter_eq_nil_iff.mpr (fun x hx => by simp [hI x hx])]
    simp [hEdef]
  unfold prefixInsert prefixInsertFuel
  simp only [scanStart, hscan, List.foldl_nil, hplace]
  obtain ⟨d, hd⟩ := prefixSetDmetric_eq (c := c) (E ++ new :: I) E.getLast? new
  have hnext : tailqNext ((E ++ new :: I).map (setMetric new.ptr d)) new.ptr =
      (I.map (setMetric new.ptr d)).head? := by
    rw [List.map_append, List.map_cons]
    apply tailqNext_middle (setMetric_ptr ..)
    rw [← List.map_cons, ← List.map_append, List.map_map]
    simpa only [Function.comp_def, setMetric_ptr] using hmid
  have hfirst : eligibles ((E ++ new :: I).map (setMetric new.ptr d)) = eligibles h := by
    rw [eligibles_setMetric d (hset new (by simp)), helig]
  rw [hd, hnext]
  -- the element behind the new one has its metric set too
  cases hI₀ : I.map (setMetric new.ptr d) with
  | nil => exact hfirst
  | cons n I' =>
    obtain ⟨d', hd'⟩ := prefixSetDmetric_eq (c := c) ((E ++ new :: I).map (setMetric new.ptr d))
      (some new) n
    rw [List.head?_cons, hd', eligibles_setMetric, hfirst]
    intro x hx hptr
    obtain ⟨x₀, hx₀, rfl⟩ := List.mem_map.mp hx
    rw [setMetric_ptr] at hptr
    rw [setMetric_eligible]
    refine hset n ?_ x₀ hx₀ hptr
    have hn : n ∈ I.map (setMetric new.ptr d) := by
      rw [hI₀]
      exact List.mem_cons_self ..
    obtain ⟨n₀, hn₀, rfl⟩ := List.mem_map.mp hn
    rw [setMetric_ptr]
    exact List.mem_map_of_mem (List.mem_cons_of_mem _ hn₀)

/-- An ineligible path is only followed by others. -/
theorem EligibleFirst.behind {X Y : List Prefix} {o : Prefix} (hf : EligibleFirst (X ++ o :: Y))
    (ho : prefixEligible o = false) : ∀ y ∈ Y, prefixEligible y = false := by
  intro y hy
  have hpw := (List.pairwise_append.mp hf).2.1
  cases hel : prefixEligible y with
  | false => rfl
  | true => exact absurd ((List.pairwise_cons.mp hpw).1 y hy hel) (by simp [ho])

/-- Removing an ineligible path leaves the eligible ones alone. -/
theorem prefixRemove_ineligible {old o : Prefix} {X Y : List Prefix} (hptr : o.ptr = old.ptr)
    (hcore : o.core = old.core) (ho : prefixEligible old = false)
    (hnd : ((X ++ o :: Y).map (·.ptr)).Nodup) (hf : EligibleFirst (X ++ o :: Y)) :
    eligibles (prefixRemove c old (X ++ o :: Y)) = eligibles (X ++ o :: Y) := by
  have ho' : prefixEligible o = false := by
    have h := congrArg prefixEligible hcore
    exact h.trans ho
  have hY := hf.behind ho'
  -- the eligible paths are the same without the ineligible one
  have helig : eligibles (X ++ Y) = eligibles (X ++ o :: Y) := by
    simp [eligibles, List.filter_append, ho']
  have hndXY : ((X ++ Y).map (·.ptr)).Nodup := by
    refine hnd.sublist (List.Sublist.map _ ?_)
    exact (List.sublist_cons_self o Y).append_left X
  -- the element whose metric is set stands behind the removed one
  have hset : ∀ n ∈ Y.head?, ∀ x ∈ X ++ Y, x.ptr = n.ptr → prefixEligible x = false := by
    intro n hn x hx hxn
    have hnY : n ∈ Y := List.mem_of_mem_head? hn
    rcases List.mem_append.mp hx with hx | hx
    · exfalso
      rw [List.map_append, List.nodup_append] at hndXY
      exact hndXY.2.2 x.ptr (List.mem_map_of_mem hx) n.ptr (List.mem_map_of_mem hnY) hxn
    · exact hY x hx
  have hmetric : ∀ pp, eligibles (prefixSetDmetric c (X ++ Y) pp Y.head?) = eligibles (X ++ Y) := by
    intro pp
    cases hn : Y.head? with
    | none => rfl
    | some n =>
      obtain ⟨d, hd⟩ := prefixSetDmetric_eq (c := c) (X ++ Y) pp n
      rw [hd, eligibles_setMetric d (hset n hn)]
  -- a path that is not eligible had blocked nothing
  have hcmp : ¬ (prefixCmp c (some old) Y.head?).2 > 0 := by
    cases hn : Y.head? with
    | none => simp [prefixCmp]
    | some n => simp [prefixCmp_ineligible_right old (hY n (List.mem_of_mem_head? hn))]
  unfold prefixRemove
  rw [tailqNext_middle hptr hnd, tailqPrev_middle hptr hnd]
  simp only [if_neg hcmp, List.foldl_nil]
  rw [← hptr, tailqRemove_middle hnd]
  cases hlast : X.getLast? with
  | none =>
    rw [List.getLast?_eq_none_iff] at hlast
    subst hlast
    exact (hmetric none).trans helig
  | some p =>
    obtain ⟨X', rfl⟩ := List.getLast?_eq_some_iff.mp hlast
    have hmid : ((X' ++ p :: Y).map (·.ptr)).Nodup := by simpa using hndXY
    have hnext : tailqNext (X' ++ [p] ++ Y) p.ptr = Y.head? := by
      rw [List.append_assoc, List.singleton_append]
      exact tailqNext_middle rfl hmid
    simp only [hnext]
    exact (hmetric (some p)).trans helig

/-! ## Lists of a RIB entry -/

/-- The path with a given path id. -/
def pathById (l : List Prefix) (id : ℕ) : Option Prefix := l.find? (fun p => p.pathIdTx = id)

theorem pathById_eq_some_iff {l : List Prefix} (hnd : (l.map (·.pathIdTx)).Nodup) {id : ℕ}
    {p : Prefix} : pathById l id = some p ↔ p ∈ l ∧ p.pathIdTx = id := by
  refine ⟨fun h => ⟨List.mem_of_find?_eq_some h, by simpa using List.find?_some h⟩, ?_⟩
  rintro ⟨hp, rfl⟩
  obtain ⟨a, b, rfl⟩ := List.append_of_mem hp
  rw [List.map_append, List.map_cons, List.nodup_middle, List.nodup_cons] at hnd
  rw [pathById, List.find?_append, List.find?_eq_none.mpr, Option.none_or, List.find?_cons]
  · simp
  · intro x hx heq
    exact hnd.1 (List.mem_append_left _ (List.mem_map.mpr ⟨x, hx, by simpa using heq⟩))

/-- What is promised of the paths of a destination: objects and path ids are distinct, and a
    path id is never 0. -/
structure KeysOk (pt : PtEntry) (l : List Prefix) : Prop where
  ptrs : (l.map (·.ptr)).Nodup
  ids : (l.map (·.pathIdTx)).Nodup
  ne : ∀ p ∈ l, p.pathIdTx ≠ 0
  dest : ∀ p ∈ l, p.pt = pt

variable {pt : PtEntry} {l l' h h₁ h' : List Prefix}

theorem KeysOk.perm (h : KeysOk pt l) (hp : l.Perm l') : KeysOk pt l' where
  ptrs := (hp.map _).nodup_iff.mp h.ptrs
  ids := (hp.map _).nodup_iff.mp h.ids
  ne p hmem := h.ne p (hp.mem_iff.mpr hmem)
  dest p hmem := h.dest p (hp.mem_iff.mpr hmem)

theorem KeysOk.tail {p : Prefix} (h : KeysOk pt (p :: l)) : KeysOk pt l where
  ptrs := (List.nodup_cons.mp h.ptrs).2
  ids := (List.nodup_cons.mp h.ids).2
  ne x hx := h.ne x (List.mem_cons_of_mem _ hx)
  dest x hx := h.dest x (List.mem_cons_of_mem _ hx)

theorem keysOk_coreList : KeysOk pt (coreList h) ↔ KeysOk pt h := by
  have hids : (coreList h).map (·.pathIdTx) = h.map (·.pathIdTx) := by
    simp [coreList, Function.comp_def, Prefix.core]
  constructor
  · rintro ⟨hptrs, hids', hne, hdest⟩
    refine ⟨by simpa using hptrs, by rwa [hids] at hids', fun p hp => ?_, fun p hp => ?_⟩
    · exact hne p.core (List.mem_map_of_mem hp)
    · exact hdest p.core (List.mem_map_of_mem hp)
  · rintro ⟨hptrs, hids', hne, hdest⟩
    refine ⟨by simpa using hptrs, by rwa [hids], ?_, ?_⟩
    · intro p hp
      obtain ⟨x, hx, rfl⟩ := List.mem_map.mp hp
      exact hne x hx
    · intro p hp
      obtain ⟨x, hx, rfl⟩ := List.mem_map.mp hp
      exact hdest x hx

/-- The list of a RIB entry in an evaluated RIB. -/
structure ListOk (pt : PtEntry) (h : List Prefix) : Prop extends KeysOk pt h where
  first : EligibleFirst h

theorem ListOk.nil (pt : PtEntry) : ListOk pt [] where
  ptrs := List.nodup_nil
  ids := List.nodup_nil
  ne := by simp
  dest := by simp
  first := List.Pairwise.nil

theorem ListOk.eligibles_ids (h : ListOk pt l) : ((eligibles l).map (·.pathIdTx)).Nodup :=
  h.ids.sublist (List.Sublist.map _ List.filter_sublist)

/-- `prefix_remove` of a listed path. -/
theorem ListOk.remove (hok : ListOk pt h) {old : Prefix} (hold : ∃ x ∈ h, x.core = old.core) :
    ListOk pt (prefixRemove c old h) ∧
      (coreList h).Perm (old.core :: coreList (prefixRemove c old h)) := by
  obtain ⟨o, ho, hcore⟩ := hold
  obtain ⟨X, Y, rfl⟩ := List.append_of_mem ho
  have hptr : o.ptr = old.ptr := (congrArg Prefix.ptr hcore : o.core.ptr = old.core.ptr)
  have hperm : (coreList (X ++ o :: Y)).Perm
      (old.core :: coreList (prefixRemove c old (X ++ o :: Y))) := by
    rw [coreList_append, coreList_cons, hcore]
    refine List.perm_middle.trans ((List.perm_cons _).mpr ?_)
    rw [← coreList_append]
    exact (prefixRemove_perm hptr hok.ptrs).symm
  have hkeys : KeysOk pt (coreList (prefixRemove c old (X ++ o :: Y))) :=
    ((keysOk_coreList.mpr hok.toKeysOk).perm hperm).tail
  exact ⟨⟨keysOk_coreList.mp hkeys, prefixRemove_eligibleFirst hptr hok.ptrs hok.first⟩, hperm⟩

/-- `prefix_insert` of a path with a new address and a new path id. -/
theorem ListOk.insert (hok : ListOk pt h) {new : Prefix} (hnew : KeysOk pt (new :: h)) :
    ListOk pt (prefixInsert c new none h) ∧
      (coreList (prefixInsert c new none h)).Perm (new.core :: coreList h) := by
  have hperm := prefixInsert_perm (c := c) hnew.ptrs
  have hkeys : KeysOk pt (coreList (prefixInsert c new none h)) :=
    (keysOk_coreList.mpr hnew).perm hperm.symm
  exact ⟨⟨keysOk_coreList.mp hkeys, prefixInsert_eligibleFirst hnew.ptrs hok.first⟩, hperm⟩

/-! ## What is reported -/

/-- The path without its place in the decision and its age. -/
def Prefix.essence (p : Prefix) : Prefix := { p with dmetric := 0, lastchange := 0 }

/-- The path without its age. -/
def Prefix.timeless (p : Prefix) : Prefix := { p with lastchange := 0 }

/-- The path id a call of `rde_enqueue_updates` is for. -/
def Enqueue.pathIdTx (q : Enqueue) : ℕ :=
  match q.newpath with
  | some p => p.pathIdTx
  | none => q.oldPathidTx

/-- A change of the list `h` and what may be concluded from what it reports. -/
structure Evaluated (pt : PtEntry) (evaluateAll : Bool) (h : List Prefix) (ev : Evaluation) :
    Prop where
  ok : ListOk pt ev.h
  modes : ∀ q ∈ ev.enqueue, q.peer.isSome ∧ (q.mode = .default ∨ q.mode = .all)
  /-- Without `EVAL_DEFAULT` the best path is the same. -/
  best : (∀ q ∈ ev.enqueue, q.mode ≠ .default) →
    (eligibles ev.h).head?.map Prefix.essence = (eligibles h).head?.map Prefix.essence
  /-- Only the path with the reported path id may have changed. -/
  byId : ∀ q ∈ ev.enqueue, ∀ id ≠ q.pathIdTx,
    (pathById (eligibles ev.h) id).map Prefix.essence =
      (pathById (eligibles h) id).map Prefix.essence
  /-- The path that is reported is the one with the path id. -/
  queued : ∀ q ∈ ev.enqueue,
    (pathById (eligibles ev.h) q.pathIdTx).map (·.ptr) = q.newpath.map (·.ptr)
  /-- With `rde evaluate all` nothing changes without a report. -/
  quiet : evaluateAll = true → ev.enqueue = none →
    (eligibles ev.h).map Prefix.timeless = (eligibles h).map Prefix.timeless

/-- The eligible path with a path id, without its metric. -/
theorem pathById_eligibles_core (hok : ListOk pt l) (id : ℕ) (x : Prefix) :
    (pathById (eligibles l) id).map Prefix.core = some x ↔
      x ∈ coreList l ∧ prefixEligible x ∧ x.pathIdTx = id := by
  rw [Option.map_eq_some_iff]
  constructor
  · rintro ⟨p, hp, rfl⟩
    obtain ⟨hmem, hid⟩ := (pathById_eq_some_iff hok.eligibles_ids).mp hp
    obtain ⟨hmem, hel⟩ := List.mem_filter.mp hmem
    exact ⟨List.mem_map_of_mem hmem, hel, hid⟩
  · rintro ⟨hmem, hel, hid⟩
    obtain ⟨p, hp, rfl⟩ := List.mem_map.mp hmem
    exact ⟨p, (pathById_eq_some_iff hok.eligibles_ids).mpr
      ⟨List.mem_filter.mpr ⟨hp, hel⟩, hid⟩, rfl⟩

/-- Two lists that have the same paths but for those with path id `t`. -/
theorem pathById_core_congr (hok : ListOk pt l) (hok' : ListOk pt l') {t : ℕ}
    (hsame : ∀ x : Prefix, x.pathIdTx ≠ t → (x ∈ coreList l' ↔ x ∈ coreList l)) {id : ℕ}
    (hid : id ≠ t) :
    (pathById (eligibles l') id).map Prefix.core = (pathById (eligibles l) id).map Prefix.core := by
  ext x
  rw [pathById_eligibles_core hok', pathById_eligibles_core hok]
  constructor
  · rintro ⟨hmem, hel, rfl⟩
    exact ⟨(hsame x hid).mp hmem, hel, rfl⟩
  · rintro ⟨hmem, hel, rfl⟩
    exact ⟨(hsame x hid).mpr hmem, hel, rfl⟩

theorem essence_of_core {o o' : Option Prefix} (h : o'.map Prefix.core = o.map Prefix.core) :
    o'.map Prefix.essence = o.map Prefix.essence := by
  have hcomp : Prefix.essence = Prefix.timeless ∘ Prefix.core := rfl
  rw [hcomp, ← Option.map_map, ← Option.map_map, h]

/-- The report at the end of both functions. `t` is the path id of the change. -/
theorem evaluationReport_evaluated {flags : RibFlags} {evaluateAll changed quiet : Bool}
    {newbest oldbest new : Option Prefix} {peer : Option PeerId} {oldPathidTx t : ℕ}
    (hok : ListOk pt h) (hok' : ListOk pt h')
    (hsame : ∀ x : Prefix, x.pathIdTx ≠ t → (x ∈ coreList h' ↔ x ∈ coreList h))
    (hnew : (pathById (eligibles h') t).map (·.ptr) = new.map (·.ptr))
    (hreport : quiet = false →
      peer.isSome ∧ Enqueue.pathIdTx ⟨peer, new, oldPathidTx, .default⟩ = t)
    (hbest : changed = false →
      (eligibles h').head?.map Prefix.essence = (eligibles h).head?.map Prefix.essence)
    (hquiet : quiet = true → changed = false ∧
      (eligibles h').map Prefix.timeless = (eligibles h).map Prefix.timeless) :
    Evaluated pt evaluateAll h
      (evaluationReport flags evaluateAll h' newbest oldbest changed quiet peer new
        oldPathidTx) := by
  have hbyId : ∀ id ≠ t, (pathById (eligibles h') id).map Prefix.essence =
      (pathById (eligibles h) id).map Prefix.essence :=
    fun id hid => essence_of_core (pathById_core_congr hok hok' hsame hid)
  unfold evaluationReport
  -- the best path has changed, or the change is for those who see all paths
  cases hchanged : changed with
  | true =>
    have hq : quiet = false := by
      cases hq : quiet with
      | false => rfl
      | true => rw [(hquiet hq).1] at hchanged; cases hchanged
    obtain ⟨hpeer, hid⟩ := hreport hq
    refine ⟨hok', ?_, ?_, ?_, ?_, ?_⟩
    · rintro q ⟨⟩
      exact ⟨hpeer, Or.inl rfl⟩
    · intro hmode
      exact absurd rfl (hmode _ rfl)
    · rintro q ⟨⟩ id hne
      exact hbyId id (hid ▸ hne)
    · rintro q ⟨⟩
      exact (congrArg (fun i => (pathById (eligibles h') i).map (·.ptr)) hid).trans hnew
    · intro _ hnone
      cases hnone
  | false =>
    simp only [Bool.false_eq_true, if_false]
    by_cases hall : (evaluateAll && !quiet) = true
    · rw [if_pos hall]
      obtain ⟨-, hq⟩ := (Bool.and_eq_true _ _).mp hall
      obtain ⟨hpeer, hid⟩ := hreport (by simpa using hq)
      refine ⟨hok', ?_, fun _ => hbest hchanged, ?_, ?_, ?_⟩
      · rintro q ⟨⟩
        exact ⟨hpeer, Or.inr rfl⟩
      · rintro q ⟨⟩ id hne
        exact hbyId id (hid ▸ hne)
      · rintro q ⟨⟩
        exact (congrArg (fun i => (pathById (eligibles h') i).map (·.ptr)) hid).trans hnew
      · intro _ hnone
        cases hnone
    · rw [if_neg hall]
      refine ⟨hok', by simp, fun _ => hbest hchanged, by simp, by simp, fun hev _ => ?_⟩
      have hq : quiet = true := by
        rw [hev] at hall
        simpa using hall
      exact (hquiet hq).2

/-! ## The two changes -/

/-- The list without the old path. -/
def removeOld (c : DecideCtx) (old : Option Prefix) (h : List Prefix) : List Prefix :=
  match old with
  | some o => prefixRemove c o h
  | none => h

/-- The list with the new path. -/
def insertNew (c : DecideCtx) (new : Option Prefix) (h : List Prefix) : List Prefix :=
  match new with
  | some n => prefixInsert c n none h
  | none => h

theorem ListOk.removeOld (hok : ListOk pt h) {old : Option Prefix}
    (hold : ∀ o ∈ old, ∃ x ∈ h, x.core = o.core) :
    ListOk pt (removeOld c old h) ∧
      (coreList h).Perm ((old.map Prefix.core).toList ++ coreList (Rde.removeOld c old h)) := by
  cases old with
  | none => exact ⟨hok, List.Perm.refl _⟩
  | some o => exact hok.remove (hold o rfl)

theorem ListOk.insertNew (hok : ListOk pt h) {new : Option Prefix}
    (hnew : ∀ n ∈ new, KeysOk pt (n :: h)) :
    ListOk pt (insertNew c new h) ∧
      (coreList (Rde.insertNew c new h)).Perm ((new.map Prefix.core).toList ++ coreList h) := by
  cases new with
  | none => exact ⟨hok, List.Perm.refl _⟩
  | some n => exact hok.insert (hnew n rfl)

/-- `new` takes the place of `old`, which is listed: the new object is not listed yet, and its
    path id is that of the old one or a new one. -/
structure Replaces (pt : PtEntry) (h : List Prefix) (new old : Option Prefix) : Prop where
  present : new.isSome ∨ old.isSome
  listed : ∀ o ∈ old, ∃ x ∈ h, x.core = o.core
  dest : ∀ n ∈ new, n.pt = pt ∧ n.pathIdTx ≠ 0
  ids : ∀ n ∈ new, ∀ x ∈ h, x.pathIdTx = n.pathIdTx → ∃ o ∈ old, x.core = o.core
  same : ∀ n ∈ new, ∀ o ∈ old, n.pathIdTx = o.pathIdTx

/-- The path id of a change. -/
def changeId (new old : Option Prefix) : ℕ := ((new.or old).map (·.pathIdTx)).getD 0

variable {new old : Option Prefix}

theorem new_changeId {n : Prefix} (hn : n ∈ new) : n.pathIdTx = changeId new old := by
  obtain rfl : new = some n := hn
  rfl

theorem Replaces.old_id (hr : Replaces pt h new old) {o : Prefix} (ho : o ∈ old) :
    o.pathIdTx = changeId new old := by
  obtain rfl : old = some o := ho
  cases hn : new with
  | none => rfl
  | some n => exact (hr.same n hn o rfl).symm

/-- The old path is gone, so that the keys of the new one are free. -/
theorem Replaces.keysOk (hr : Replaces pt h new old) (hok : ListOk pt h) {n : Prefix}
    (hn : n ∈ new) (hfresh : ∀ x ∈ coreList (removeOld c old h), x.ptr ≠ n.ptr) :
    KeysOk pt (n :: removeOld c old h) := by
  obtain ⟨hok₁, hperm⟩ := hok.removeOld (c := c) hr.listed
  refine ⟨?_, ?_, ?_, ?_⟩
  · rw [List.map_cons, List.nodup_cons]
    refine ⟨fun hmem => ?_, hok₁.ptrs⟩
    obtain ⟨x, hx, hptr⟩ := List.mem_map.mp hmem
    exact hfresh x.core (List.mem_map_of_mem hx) hptr
  · rw [List.map_cons, List.nodup_cons]
    refine ⟨fun hmem => ?_, hok₁.ids⟩
    obtain ⟨x, hx, hid⟩ := List.mem_map.mp hmem
    have hx' : x.core ∈ coreList h :=
      hperm.mem_iff.mpr (List.mem_append_right _ (List.mem_map_of_mem hx))
    obtain ⟨y, hy, hyx⟩ := List.mem_map.mp hx'
    have hyid : y.pathIdTx = n.pathIdTx :=
      (congrArg Prefix.pathIdTx hyx : y.core.pathIdTx = x.core.pathIdTx).trans hid
    obtain ⟨o, ho, hyo⟩ := hr.ids n hn y hy hyid
    -- the old path would be listed twice
    have hnd := ((hperm.map (·.ptr)).nodup_iff.mp (by simpa using hok.ptrs))
    obtain rfl : old = some o := ho
    rw [Option.map_some, Option.toList_some, List.singleton_append, List.map_cons,
      List.nodup_cons] at hnd
    refine hnd.1 (List.mem_map.mpr ⟨x.core, List.mem_map_of_mem hx, ?_⟩)
    rw [← hyx, hyo]
  · intro x hx
    rcases List.mem_cons.mp hx with rfl | hx
    · exact (hr.dest x hn).2
    · exact hok₁.ne x hx
  · intro x hx
    rcases List.mem_cons.mp hx with rfl | hx
    · exact (hr.dest x hn).1
    · exact hok₁.dest x hx

/-- The paths of the new list: the new path and those of the old list but the old path. -/
theorem Replaces.mem_coreList (hr : Replaces pt h new old) (hok : ListOk pt h)
    (hok' : ListOk pt h') (hperm : (coreList h).Perm ((old.map Prefix.core).toList ++ coreList h₁))
    (hperm' : (coreList h').Perm ((new.map Prefix.core).toList ++ coreList h₁)) :
    (∀ x : Prefix, x.pathIdTx ≠ changeId new old → (x ∈ coreList h' ↔ x ∈ coreList h)) ∧
      (pathById (eligibles h') (changeId new old)).map Prefix.core =
        (new.filter prefixEligible).map Prefix.core := by
  have hnew : ∀ x, x ∈ (new.map Prefix.core).toList → x.pathIdTx = changeId new old := by
    intro x hx
    obtain ⟨n, hn, rfl⟩ := Option.map_eq_some_iff.mp (Option.mem_toList.mp hx)
    exact new_changeId (n := n) hn
  have hold : ∀ x, x ∈ (old.map Prefix.core).toList → x.pathIdTx = changeId new old := by
    intro x hx
    obtain ⟨o, ho, rfl⟩ := Option.map_eq_some_iff.mp (Option.mem_toList.mp hx)
    exact hr.old_id (o := o) ho
  refine ⟨fun x hx => ?_, ?_⟩
  · rw [hperm'.mem_iff, hperm.mem_iff, List.mem_append, List.mem_append,
      or_iff_right (fun h => hx (hnew x h)), or_iff_right (fun h => hx (hold x h))]
  · -- only the new path has the path id
    have honly : ∀ x ∈ coreList h₁, x.pathIdTx ≠ changeId new old := by
      intro x hx heq
      have hkeys := (keysOk_coreList.mpr hok.toKeysOk).perm hperm
      have hkeys' := (keysOk_coreList.mpr hok'.toKeysOk).perm hperm'
      rcases hr.present with hsome | hsome
      · obtain ⟨n, rfl⟩ := Option.isSome_iff_exists.mp hsome
        refine (List.nodup_cons.mp hkeys'.ids).1 (List.mem_map.mpr ⟨x, hx, ?_⟩)
        exact heq
      · obtain ⟨o, rfl⟩ := Option.isSome_iff_exists.mp hsome
        refine (List.nodup_cons.mp hkeys.ids).1 (List.mem_map.mpr ⟨x, hx, ?_⟩)
        exact heq.trans (hr.old_id rfl).symm
    ext x
    rw [pathById_eligibles_core hok', hperm'.mem_iff, List.mem_append, Option.mem_toList,
      Option.map_eq_some_iff, Option.map_eq_some_iff]
    constructor
    · rintro ⟨⟨n, hn, rfl⟩ | hx, hel, hid⟩
      · exact ⟨n, Option.filter_eq_some_iff.mpr ⟨hn, hel⟩, rfl⟩
      · exact absurd hid (honly x hx)
    · rintro ⟨n, hn, rfl⟩
      obtain ⟨hn, hel⟩ := Option.filter_eq_some_iff.mp hn
      exact ⟨Or.inl ⟨n, hn, rfl⟩, hel, new_changeId (n := n) hn⟩

theorem ptr_of_core {o o' : Option Prefix} (h : o'.map Prefix.core = o.map Prefix.core) :
    o'.map (·.ptr) = o.map (·.ptr) := by
  have hcomp : (fun p : Prefix => p.ptr) = (fun p : Prefix => p.ptr) ∘ Prefix.core := rfl
  rw [hcomp, ← Option.map_map, ← Option.map_map, h]

/-- The first eligible path before and after is one object, which was there all the time. -/
theorem head_essence_of_ptr (hok : ListOk pt h) {X : List Prefix}
    (hperm' : (coreList h').Perm (X ++ coreList h₁)) (hsub : ∀ x ∈ coreList h₁, x ∈ coreList h)
    (hptr : (eligibles h).head?.map (·.ptr) = (eligibles h').head?.map (·.ptr))
    (hX : ∀ b ∈ (eligibles h').head?, ∀ x ∈ X, x.ptr ≠ b.ptr) :
    (eligibles h').head?.map Prefix.essence = (eligibles h).head?.map Prefix.essence := by
  apply essence_of_core
  cases hb' : (eligibles h').head? with
  | none =>
    rw [hb', Option.map_none, Option.map_eq_none_iff] at hptr
    rw [hptr]
  | some b' =>
    rw [hb', Option.map_some, Option.map_eq_some_iff] at hptr
    obtain ⟨b, hb, hbptr⟩ := hptr
    rw [hb, Option.map_some, Option.map_some, Option.some.injEq]
    have hmem' : b' ∈ h' := (List.mem_filter.mp (List.mem_of_mem_head? hb')).1
    have hmem : b ∈ h := (List.mem_filter.mp (List.mem_of_mem_head? hb)).1
    have hcore : b'.core ∈ coreList h := by
      have := hperm'.mem_iff.mp (List.mem_map_of_mem hmem')
      rcases List.mem_append.mp this with hx | hx
      · exact absurd rfl (hX b' hb' b'.core hx)
      · exact hsub _ hx
    -- addresses are unique
    have hnd : ((coreList h).map (·.ptr)).Nodup := by simpa using hok.ptrs
    exact List.inj_on_of_nodup_map hnd hcore (List.mem_map_of_mem hmem) hbptr.symm

theorem samePrefix_iff {p q : Option Prefix} :
    samePrefix p q = true ↔ p.map (·.ptr) = q.map (·.ptr) := decide_eq_true_iff

/-- The old path as far as it is reported: not if an eligible one takes its place. -/
def reportedOld (new old : Option Prefix) : Option Prefix :=
  if (new.filter prefixEligible).isSome then none else old

theorem prefixEvaluate_eq {flags : RibFlags} (evaluateAll : Bool) (hev : flags.noevaluate = false)
    (hsome : new.isSome ∨ old.isSome) {h' : List Prefix}
    (hh' : insertNew c new (removeOld c old h) = h') :
    prefixEvaluate c flags evaluateAll h new old = some
      (evaluationReport flags evaluateAll h' (prefixBest flags h') (prefixBest flags h)
        (!samePrefix (prefixBest flags h) (prefixBest flags h') ||
          ((reportedOld new old).isSome && samePrefix (prefixBest flags h') (reportedOld new old)))
        ((reportedOld new old).isNone && (new.filter prefixEligible).isNone)
        (((new.filter prefixEligible).map (·.peer)).orElse
          fun _ => (reportedOld new old).map (·.peer))
        (new.filter prefixEligible)
        (((reportedOld new old).map (·.pathIdTx)).getD 0)) := by
  subst hh'
  have hne : ¬(old.isNone && new.isNone) = true := by
    cases old <;> cases new <;> simp_all
  unfold prefixEvaluate
  rw [if_neg hne, if_neg (by simp [hev])]
  rfl

/-- `prefix_evaluate` in an evaluated RIB. -/
theorem prefixEvaluate_evaluated {flags : RibFlags} (evaluateAll : Bool)
    (hev : flags.noevaluate = false) (hok : ListOk pt h) (hr : Replaces pt h new old)
    (hfresh : ∀ n ∈ new, ∀ x ∈ h, x.ptr ≠ n.ptr) :
    ∃ ev, prefixEvaluate c flags evaluateAll h new old = some ev ∧
      Evaluated pt evaluateAll h ev := by
  obtain ⟨hok₁, hperm⟩ := hok.removeOld (c := c) hr.listed
  have hsub : ∀ x ∈ coreList (removeOld c old h), x ∈ coreList h :=
    fun x hx => hperm.mem_iff.mpr (List.mem_append_right _ hx)
  have hfresh' : ∀ n ∈ new, ∀ x ∈ coreList h, x.ptr ≠ n.ptr := by
    intro n hn x hx
    obtain ⟨y, hy, rfl⟩ := List.mem_map.mp hx
    exact hfresh n hn y hy
  obtain ⟨hok', hperm'⟩ := hok₁.insertNew (c := c)
    fun n hn => hr.keysOk hok hn fun x hx => hfresh' n hn x (hsub x hx)
  obtain ⟨hsame, hcore⟩ := hr.mem_coreList hok hok' hperm hperm'
  rw [prefixEvaluate_eq evaluateAll hev hr.present rfl]
  refine ⟨_, rfl, ?_⟩
  have hkeys : ∀ n ∈ new, KeysOk pt (n :: removeOld c old h) :=
    fun n hn => hr.keysOk hok hn fun x hx => hfresh' n hn x (hsub x hx)
  set h' := insertNew c new (removeOld c old h) with hh'
  have hb : prefixBest flags h = (eligibles h).head? := prefixBest_eq_head hev hok.first
  have hb' : prefixBest flags h' = (eligibles h').head? := prefixBest_eq_head hev hok'.first
  rw [hb, hb']
  refine evaluationReport_evaluated (t := changeId new old) hok hok' hsame (ptr_of_core hcore)
    (fun hquiet => ?_) (fun hchanged => ?_) (fun hquiet => ?_)
  · -- the peer and the path id of the call
    unfold reportedOld at hquiet ⊢
    cases hn : new.filter prefixEligible with
    | some n =>
      obtain ⟨hn, _⟩ := Option.filter_eq_some_iff.mp hn
      exact ⟨rfl, new_changeId (n := n) hn⟩
    | none =>
      cases ho : old with
      | none => simp [hn, ho] at hquiet
      | some o =>
        have hid := hr.old_id (o := o) ho
        rw [ho] at hid
        exact ⟨rfl, hid⟩
  · -- the new path was not listed before, so it cannot be the best one of both lists
    have hptr : (eligibles h).head?.map (·.ptr) = (eligibles h').head?.map (·.ptr) :=
      samePrefix_iff.mp (by simpa using (Bool.or_eq_false_iff.mp hchanged).1)
    refine head_essence_of_ptr hok hperm' hsub hptr fun b hbest x hx heq => ?_
    obtain ⟨n, hn, rfl⟩ := Option.map_eq_some_iff.mp (Option.mem_toList.mp hx)
    rw [Option.mem_def.mp hbest, Option.map_some, Option.map_eq_some_iff] at hptr
    obtain ⟨b₀, hb₀, hb₀ptr⟩ := hptr
    have hmem : b₀ ∈ h := (List.mem_filter.mp (List.mem_of_mem_head? hb₀)).1
    exact hfresh n hn b₀ hmem (hb₀ptr.trans heq.symm)
  · -- an ineligible path was added
    obtain ⟨hold, hnew⟩ := (Bool.and_eq_true _ _).mp hquiet
    rw [Option.isNone_iff_eq_none] at hold hnew
    have hnone : old = none := by simpa [reportedOld, hnew] using hold
    subst hnone
    obtain ⟨n, rfl⟩ := Option.isSome_iff_exists.mp (hr.present.resolve_right (by simp))
    have hel : prefixEligible n = false := by
      cases hel : prefixEligible n with
      | false => rfl
      | true => simp [hel] at hnew
    have heq : eligibles h' = eligibles h :=
      prefixInsert_ineligible hel (hkeys n rfl).ptrs hok.first
    rw [heq, hold]
    simp [samePrefix]

/-- The objects that are listed afterwards: those that were listed, and the new one. -/
theorem prefixEvaluate_ptrs {flags : RibFlags} {evaluateAll : Bool}
    (hev : flags.noevaluate = false) (hok : ListOk pt h) (hr : Replaces pt h new old)
    (hfresh : ∀ n ∈ new, ∀ x ∈ h, x.ptr ≠ n.ptr) {ev : Evaluation}
    (h' : prefixEvaluate c flags evaluateAll h new old = some ev) :
    ∀ x ∈ ev.h, x.ptr ∈ h.map (·.ptr) ∨ x.ptr ∈ new.map (·.ptr) := by
  obtain ⟨hok₁, hperm⟩ := hok.removeOld (c := c) hr.listed
  have hsub : ∀ x ∈ coreList (removeOld c old h), x ∈ coreList h :=
    fun x hx => hperm.mem_iff.mpr (List.mem_append_right _ hx)
  have hkeys : ∀ n ∈ new, KeysOk pt (n :: removeOld c old h) := by
    refine fun n hn => hr.keysOk hok hn fun x hx => ?_
    obtain ⟨y, hy, rfl⟩ := List.mem_map.mp (hsub x hx)
    exact hfresh n hn y hy
  obtain ⟨_, hperm'⟩ := hok₁.insertNew (c := c) hkeys
  rw [prefixEvaluate_eq evaluateAll hev hr.present rfl, Option.some.injEq] at h'
  subst h'
  rw [evaluationReport_h]
  intro x hx
  rcases List.mem_append.mp (hperm'.mem_iff.mp (List.mem_map_of_mem hx)) with hn | hx
  · obtain ⟨n, hn, heq⟩ := Option.map_eq_some_iff.mp (Option.mem_toList.mp hn)
    exact Or.inr (Option.mem_map.mpr ⟨n, hn, (congrArg Prefix.ptr heq : n.core.ptr = x.core.ptr)⟩)
  · obtain ⟨y, hy, heq⟩ := List.mem_map.mp (hsub _ hx)
    exact Or.inl (List.mem_map.mpr ⟨y, hy, (congrArg Prefix.ptr heq : y.core.ptr = x.core.ptr)⟩)

/-- A list that did not change and of which nothing is reported. -/
theorem Evaluated.unchanged (hok : ListOk pt h) (evaluateAll : Bool)
    {k : Option (Option Prefix × Option Prefix)} :
    Evaluated pt evaluateAll h { h := h, kroute := k } :=
  ⟨hok, by simp, fun _ => rfl, by simp, by simp, fun _ _ => rfl⟩

/-- `prefix_evaluate_nexthop` for a listed path. -/
theorem prefixEvaluateNexthop_evaluated {flags : RibFlags} (evaluateAll : Bool)
    (hev : flags.noevaluate = false) (hok : ListOk pt h) {p : Prefix} (hp : p ∈ h)
    (state oldstate : NexthopState) :
    Evaluated pt evaluateAll h
      (prefixEvaluateNexthop c flags evaluateAll h p state oldstate) := by
  unfold prefixEvaluateNexthop
  rw [if_neg (by simp [hev])]
  by_cases hstate : oldstate = state
  · rw [if_pos hstate]
    split_ifs <;> exact Evaluated.unchanged hok evaluateAll
  rw [if_neg hstate]
  dsimp only
  set new : Prefix := { p with nhvalid := decide (state = .reach) } with hnewdef
  obtain ⟨hok₁, hperm⟩ := hok.remove (c := c) ⟨p, hp, rfl⟩
  have hsub : ∀ x ∈ coreList (prefixRemove c p h), x ∈ coreList h :=
    fun x hx => hperm.mem_iff.mpr (List.mem_cons_of_mem _ hx)
  have hr : Replaces pt h (some new) (some p) := by
    refine ⟨Or.inl rfl, ?_, ?_, ?_, ?_⟩
    · rintro o ⟨⟩
      exact ⟨p, hp, rfl⟩
    · rintro n ⟨⟩
      exact ⟨hok.dest p hp, hok.ne p hp⟩
    · rintro n ⟨⟩ x hx hid
      exact ⟨p, rfl, by rw [List.inj_on_of_nodup_map hok.ids hx hp hid]⟩
    · rintro n ⟨⟩ o ⟨⟩
      rfl
  -- the object is not listed while it is taken out
  have hout : ∀ x ∈ coreList (prefixRemove c p h), x.ptr ≠ p.ptr := by
    have hnd := (hperm.map (·.ptr)).nodup_iff.mp (by simpa using hok.ptrs)
    intro x hx heq
    exact (List.nodup_cons.mp hnd).1 (List.mem_map.mpr ⟨x, hx, heq⟩)
  have hkeys : KeysOk pt (new :: prefixRemove c p h) := hr.keysOk (c := c) hok rfl hout
  obtain ⟨hok', hperm'⟩ := hok₁.insert (c := c) hkeys
  obtain ⟨hsame, hcore⟩ := hr.mem_coreList hok hok' hperm hperm'
  set h' := prefixInsert c new none (prefixRemove c p h) with hh'
  have hb : prefixBest flags h = (eligibles h).head? := prefixBest_eq_head hev hok.first
  have hb' : prefixBest flags h' = (eligibles h').head? := prefixBest_eq_head hev hok'.first
  by_cases hskip : (if ((some new).filter prefixEligible).isNone && prefixEligible p then
      p.pathIdTx else 0) = 0 ∧ ((some new).filter prefixEligible).isNone
  · -- the path was and still is ineligible
    rw [if_pos hskip]
    obtain ⟨hid, hnone⟩ := hskip
    have hnew : prefixEligible new = false := by
      cases hel : prefixEligible new with
      | false => rfl
      | true => simp [hel] at hnone
    have hold : prefixEligible p = false := by
      cases hel : prefixEligible p with
      | false => rfl
      | true =>
        rw [hnone, hel] at hid
        exact absurd hid (hok.ne p hp)
    have heq : eligibles h' = eligibles h := by
      rw [hh', prefixInsert_ineligible hnew hkeys.ptrs hok₁.first]
      obtain ⟨X, Y, rfl⟩ := List.append_of_mem hp
      exact prefixRemove_ineligible rfl rfl hold hok.ptrs hok.first
    exact ⟨hok', by simp, fun _ => by rw [heq], by simp, by simp, fun _ _ => by rw [heq]⟩
  · rw [if_neg hskip, hb, hb']
    refine evaluationReport_evaluated (t := p.pathIdTx) hok hok' hsame (ptr_of_core hcore)
      (fun _ => ⟨rfl, ?_⟩) (fun hchanged => ?_) (fun hquiet => by cases hquiet)
    · cases hn : (some new).filter prefixEligible with
      | some n =>
        obtain ⟨hn, _⟩ := Option.filter_eq_some_iff.mp hn
        obtain rfl : new = n := Option.some.inj hn
        rfl
      | none =>
        rw [hn] at hskip
        cases hel : prefixEligible p with
        | true => rfl
        | false => simp [hel] at hskip
    · obtain ⟨hsp, hnotp⟩ := Bool.or_eq_false_iff.mp hchanged
      have hptr := samePrefix_iff.mp (by simpa using hsp)
      refine head_essence_of_ptr hok (X := [new.core]) hperm' hsub hptr fun b hbest x hx heq => ?_
      obtain rfl := List.mem_singleton.mp hx
      have hyes : samePrefix (eligibles h').head? (some p) = true := by
        rw [samePrefix_iff, Option.mem_def.mp hbest]
        exact congrArg some heq.symm
      rw [hyes] at hnotp
      cases hnotp

/-- The same objects are listed afterwards. -/
theorem prefixEvaluateNexthop_ptrs {flags : RibFlags} {evaluateAll : Bool} (hok : ListOk pt h)
    {p : Prefix} (hp : p ∈ h) (state oldstate : NexthopState) :
    ∀ x ∈ (prefixEvaluateNexthop c flags evaluateAll h p state oldstate).h,
      x.ptr ∈ h.map (·.ptr) := by
  set new : Prefix := { p with nhvalid := decide (state = .reach) } with hnew
  obtain ⟨hok₁, hperm⟩ := hok.remove (c := c) ⟨p, hp, rfl⟩
  have hkeys : KeysOk pt (new :: prefixRemove c p h) := by
    have hall := (keysOk_coreList.mpr hok.toKeysOk).perm hperm
    have hsame : (new :: prefixRemove c p h).map (·.ptr) =
        (p.core :: coreList (prefixRemove c p h)).map (·.ptr) := by
      simp [hnew]
    refine ⟨hsame ▸ hall.ptrs, ?_, ?_, ?_⟩
    · have hids := hall.ids
      simp only [coreList, List.map_cons, List.map_map] at hids ⊢
      exact hids
    · intro x hx
      rcases List.mem_cons.mp hx with rfl | hx
      · exact hok.ne p hp
      · exact hok₁.ne x hx
    · intro x hx
      rcases List.mem_cons.mp hx with rfl | hx
      · exact hok.dest p hp
      · exact hok₁.dest x hx
  obtain ⟨_, hperm'⟩ := hok₁.insert (c := c) hkeys
  have hall : ∀ x ∈ prefixInsert c new none (prefixRemove c p h), x.ptr ∈ h.map (·.ptr) := by
    intro x hx
    rcases List.mem_cons.mp (hperm'.mem_iff.mp (List.mem_map_of_mem hx)) with heq | hx
    · have hptr : x.core.ptr = new.core.ptr := congrArg Prefix.ptr heq
      exact List.mem_map.mpr ⟨p, hp, hptr.symm⟩
    · obtain ⟨y, hy, heq⟩ := List.mem_map.mp (hperm.mem_iff.mpr (List.mem_cons_of_mem _ hx))
      exact List.mem_map.mpr ⟨y, hy, (congrArg Prefix.ptr heq : y.core.ptr = x.core.ptr)⟩
  have hsame : ∀ x ∈ h, x.ptr ∈ h.map (·.ptr) := fun x hx => List.mem_map_of_mem hx
  unfold prefixEvaluateNexthop
  dsimp only
  split_ifs
  all_goals first | exact hsame | exact hall | (rw [evaluationReport_h]; exact hall)

end Bgpd.Rde
