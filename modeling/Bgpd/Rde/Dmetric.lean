import Mathlib.Data.List.Chain
import Bgpd.Rde.DecideTie
import Bgpd.Rde.EvaluateSpec

/-!
# The Decision Metric Describes the List

`prefix_insert` and `prefix_remove` take elements out of the list in the middle of their scans
and note `dmetric` anew only where they believe that a neighbour has changed. `Exact` says that
nothing is missed: the `dmetric` of every path is the comparison with the path before it.

The list is `X ++ B ++ todo` during a scan: `X` is not touched, `B` has been passed and kept.
While elements are being taken out the link between `B` and `todo` is broken, and `Scanned`
says that it is the only one.

## Main results

- `prefixInsert_exact`, `prefixRemove_exact`: both operations leave an exact list
- `linked_pos`: in a canonical queue the metrics are positive
- `queueRun_dmetric`: what holds after every run of insertions and removals
-/

namespace Bgpd.Rde

open Bgpd.Lib

variable {c : DecideCtx}

/-! ## Exact lists -/

/-- What `prefix_set_dmetric` notes in a path behind `pp`. -/
def metric (c : DecideCtx) (pp : Option Prefix) (x : Prefix) : ℤ :=
  match pp with
  | none => if prefixEligible x then dmetricBest else dmetricInvalid
  | some p => (prefixCmp c (some p) (some x)).1

/-- Every path but the first says how it compares with the one before it. -/
def Linked (c : DecideCtx) (h : List Prefix) : Prop :=
  h.IsChain fun x y => y.dmetric = metric c (some x) y

/-- The first path says whether it is eligible. -/
def HeadExact (c : DecideCtx) (h : List Prefix) : Prop :=
  ∀ x ∈ h.head?, x.dmetric = metric c none x

/-- Every path of the list says how it compares with its predecessor. -/
structure Exact (c : DecideCtx) (h : List Prefix) : Prop where
  head : HeadExact c h
  links : Linked c h

theorem exact_nil : Exact c [] := ⟨fun _ hx => by simp at hx, List.isChain_nil⟩

/-- The metric does not depend on the `dmetric` of either path. -/
theorem metric_core {p q x y : Prefix} (hp : p.core = q.core) (hx : x.core = y.core) :
    metric c (some p) x = metric c (some q) y := by
  have h : prefixCmp c (some p) (some x) = prefixCmp c (some q) (some y) := by
    rw [← prefixCmp_core, hp, hx, prefixCmp_core]
  rw [metric, metric, h]

theorem metric_none_core {x y : Prefix} (hx : x.core = y.core) :
    metric c none x = metric c none y := by
  have h : prefixEligible x = prefixEligible y := by
    rw [← prefixEligible_core, hx, prefixEligible_core]
  rw [metric, metric, h]

/-- The same for an optional predecessor. -/
theorem metric_map_core {pp qq : Option Prefix} {x y : Prefix}
    (hp : pp.map Prefix.core = qq.map Prefix.core) (hx : x.core = y.core) :
    metric c pp x = metric c qq y := by
  cases pp with
  | none =>
    cases qq with
    | none => exact metric_none_core hx
    | some q => simp at hp
  | some p =>
    cases qq with
    | none => simp at hp
    | some q => exact metric_core (by simpa using hp) hx

theorem linked_cons {x : Prefix} {t : List Prefix} :
    Linked c (x :: t) ↔ (∀ y ∈ t.head?, y.dmetric = metric c (some x) y) ∧ Linked c t :=
  List.isChain_cons

theorem linked_append {l k : List Prefix} :
    Linked c (l ++ k) ↔ Linked c l ∧ Linked c k ∧
      ∀ x ∈ l.getLast?, ∀ y ∈ k.head?, y.dmetric = metric c (some x) y :=
  List.isChain_append

/-- A new `dmetric` of the first path leaves the links alone. -/
theorem Linked.replace_head {x y : Prefix} {t : List Prefix} (h : Linked c (x :: t))
    (hxy : y.core = x.core) : Linked c (y :: t) := by
  obtain ⟨hx, ht⟩ := linked_cons.mp h
  refine linked_cons.mpr ⟨fun z hz => ?_, ht⟩
  rw [hx z hz]
  exact metric_core hxy.symm rfl

/-- A path that says how it compares with its predecessor joins two linked lists. -/
theorem Linked.join {l t : List Prefix} {x : Prefix} (hl : Linked c l) (ht : Linked c (x :: t))
    (hx : ∀ y ∈ l.getLast?, x.dmetric = metric c (some y) x) : Linked c (l ++ x :: t) :=
  linked_append.mpr ⟨hl, ht, fun y hy z hz => by
    rw [List.head?_cons, Option.mem_some_iff] at hz
    subst hz
    exact hx y hy⟩

theorem map_setMetric_of_not_mem {l : List Prefix} {q : Ptr} (d : ℤ)
    (hq : q ∉ l.map (·.ptr)) : l.map (setMetric q d) = l := by
  refine (List.map_congr_left fun x hx => if_neg fun hptr => ?_).trans (List.map_id l)
  exact hq (List.mem_map.mpr ⟨x, hx, hptr⟩)

/-- `prefix_set_dmetric` for a path in the middle of the list. -/
theorem prefixSetDmetric_middle {A B : List Prefix} {x y : Prefix} {pp : Option Prefix}
    (hnd : ((A ++ x :: B).map (·.ptr)).Nodup) (hy : y.core = x.core) :
    prefixSetDmetric c (A ++ x :: B) pp (some y) =
      A ++ { x with dmetric := metric c pp x } :: B := by
  have hptr : y.ptr = x.ptr := by rw [← Prefix.core_ptr, hy, Prefix.core_ptr]
  have hset : prefixSetDmetric c (A ++ x :: B) pp (some y) =
      (A ++ x :: B).map (setMetric y.ptr (metric c pp y)) := rfl
  rw [List.map_append, List.map_cons, List.nodup_middle, List.nodup_cons, List.mem_append,
    not_or] at hnd
  rw [hset, hptr, metric_map_core rfl hy, List.map_append, List.map_cons,
    map_setMetric_of_not_mem _ hnd.1.1, map_setMetric_of_not_mem _ hnd.1.2]
  simp [setMetric]

/-! ## The scans -/

/-- The queue in the middle of a scan. `X` is not touched, `B` has been passed and kept, and
    `todo` is still to come. Only behind elements taken out the link is broken. -/
structure Scanned (c : DecideCtx) (X B todo h : List Prefix) (removed : Bool) : Prop where
  queue : h = X ++ B ++ todo
  nodup : ((X ++ B ++ todo).map (·.ptr)).Nodup
  kept : Linked c B
  rest : Linked c todo
  link : removed = false → Linked c (B ++ todo)

/-- The element at hand is taken out. -/
theorem Scanned.takeOut {X B np h : List Prefix} {xp : Prefix} {removed : Bool}
    (hs : Scanned c X B (xp :: np) h removed) :
    Scanned c X B np (tailqRemove h xp.ptr) true := by
  obtain ⟨rfl, hnd, hB, hrest, -⟩ := hs
  refine ⟨tailqRemove_middle hnd, ?_, hB, (linked_cons.mp hrest).2, fun h => nomatch h⟩
  exact hnd.sublist (((List.sublist_cons_self ..).append_left _).map _)

/-- The queue with the `dmetric` of the element at hand fixed up. -/
def fixedQueue (c : DecideCtx) (removed : Bool) (h : List Prefix) (xp : Prefix) : List Prefix :=
  if removed then prefixSetDmetric c h (tailqPrev h xp.ptr) (some xp) else h

/-- The element at hand stays: after the fixup all links are right again. -/
theorem Scanned.keep {X B np h : List Prefix} {xp : Prefix} {removed : Bool}
    (hs : Scanned c X B (xp :: np) h removed) :
    ∃ x, x.core = xp.core ∧ Scanned c X (B ++ [x]) np (fixedQueue c removed h xp) false ∧
      x.dmetric = if removed then metric c (X ++ B).getLast? xp else xp.dmetric := by
  obtain ⟨rfl, hnd, hB, hrest, hlink⟩ := hs
  cases removed with
  | false =>
    have hl := hlink rfl
    refine ⟨xp, rfl, ⟨by simp [fixedQueue], by simpa using hnd, ?_, (linked_cons.mp hrest).2,
      fun _ => by simpa using hl⟩, rfl⟩
    exact (linked_append.mp (show Linked c ((B ++ [xp]) ++ np) by simpa using hl)).1
  | true =>
    have hprev : tailqPrev (X ++ B ++ xp :: np) xp.ptr = (X ++ B).getLast? :=
      tailqPrev_middle rfl hnd
    have hcore : ({ xp with dmetric := metric c (X ++ B).getLast? xp } : Prefix).core =
        xp.core := rfl
    have hnew := hrest.replace_head hcore
    have hall : Linked c (B ++ { xp with dmetric := metric c (X ++ B).getLast? xp } :: np) := by
      refine hB.join hnew fun y hy => ?_
      have : (X ++ B).getLast? = some y := by rw [List.getLast?_append, hy]; rfl
      rw [this]
      rfl
    refine ⟨_, hcore, ⟨?_, ?_, ?_, (linked_cons.mp hrest).2, fun _ => by simpa using hall⟩, rfl⟩
    · simp only [fixedQueue, if_true, hprev, prefixSetDmetric_middle hnd rfl]
      simp
    · simpa using hnd
    · exact (linked_append.mp (show Linked c ((B ++ [_]) ++ np) by simpa using hall)).1

theorem headExact_append {l k : List Prefix} (hl : l ≠ []) :
    HeadExact c (l ++ k) ↔ HeadExact c l := by
  rw [HeadExact, HeadExact, List.head?_append_of_ne_nil l hl]

/-- The state of the scan of `prefix_insert`: nothing stands before the elements it has kept. -/
structure Inserting (c : DecideCtx) (B todo : List Prefix) (st : InsertScan) : Prop where
  scan : Scanned c [] B todo st.h st.removed
  head : HeadExact c B
  front : st.removed = false → HeadExact c (B ++ todo)
  point : ∀ q ∈ st.insertp, q.core ∈ coreList B

theorem Inserting.takeOut {B np : List Prefix} {xp : Prefix} {st : InsertScan}
    (h : Inserting c B (xp :: np) st) (redo : List Prefix) :
    Inserting c B np { st with h := tailqRemove st.h xp.ptr, redo := redo, removed := true } :=
  ⟨h.scan.takeOut, h.head, (fun h => nomatch h), h.point⟩

theorem InsertScan.fixup_removed (st : InsertScan) (xp : Prefix) :
    (st.fixup c xp).removed = false := by
  unfold InsertScan.fixup
  cases h : st.removed <;> simp [h]

/-- The element at hand stays, and may become the insertion point. -/
theorem Inserting.keep {B np : List Prefix} {xp : Prefix} {st : InsertScan}
    (h : Inserting c B (xp :: np) st) {ip : Option Prefix}
    (hip : ip = st.insertp ∨ ip = some xp) (sel : Bool) :
    ∃ x, Inserting c (B ++ [x]) np
      (InsertScan.fixup c { st with selected := sel, insertp := ip } xp) := by
  obtain ⟨x, hx, hs, hd⟩ := h.scan.keep
  -- the place is one of the elements that were passed
  have hpoint : ∀ q ∈ ip, q.core ∈ coreList (B ++ [x]) := by
    intro q hq
    rw [coreList_append, List.mem_append]
    rcases hip with rfl | rfl
    · exact Or.inl (h.point q hq)
    · rw [Option.mem_some_iff] at hq
      exact Or.inr (by simp [hx, hq])
  -- the head of the queue has no metric to set, or one that was right
  have hfst : HeadExact c (B ++ [x]) := by
    rcases List.eq_nil_or_concat B with rfl | ⟨B', b, rfl⟩
    · -- the element becomes the head of the queue
      intro z hz
      rw [List.nil_append, List.head?_cons, Option.mem_some_iff] at hz
      subst hz
      rw [hd, metric_none_core hx]
      cases hr : st.removed with
      | true => rfl
      | false => exact h.front hr xp rfl
    · exact (headExact_append (by simp)).mpr h.head
  have hnext : HeadExact c ((B ++ [x]) ++ np) := (headExact_append (by simp)).mpr hfst
  refine ⟨x, ?_⟩
  unfold InsertScan.fixup
  cases hr : st.removed with
  | true =>
    rw [hr] at hs
    exact ⟨hs, hfst, fun _ => hnext, hpoint⟩
  | false =>
    rw [hr] at hs
    exact ⟨by rw [← hr] at hs; simpa [fixedQueue, hr] using hs, hfst, fun _ => hnext, hpoint⟩

theorem Inserting.exact {B todo : List Prefix} {st : InsertScan} (h : Inserting c B todo st)
    (hr : st.removed = false ∨ todo = []) :
    Exact c st.h ∧ ∀ q ∈ st.insertp, q.core ∈ coreList st.h := by
  have hq := h.scan.queue
  rw [List.nil_append] at hq
  rw [hq]
  refine ⟨?_, fun q hq => by simp [h.point q hq]⟩
  rcases hr with hr | rfl
  · exact ⟨h.front hr, h.scan.link hr⟩
  · rw [List.append_nil]
    exact ⟨h.head, h.scan.kept⟩

/-- The scan of `prefix_insert` leaves an exact queue. -/
theorem insertScan_exact (new : Prefix) {todo B : List Prefix} {st : InsertScan}
    (h : Inserting c B todo st) :
    Exact c (insertScan c new todo st).h ∧
      ∀ q ∈ (insertScan c new todo st).insertp, q.core ∈ coreList (insertScan c new todo st).h := by
  induction todo generalizing B st with
  | nil => exact h.exact (Or.inr rfl)
  | cons xp np ih =>
    rw [insertScan]
    generalize prefixCmp c (some new) (some xp) = r
    obtain ⟨rv, testall⟩ := r
    dsimp only
    by_cases hrv : rv > 0
    · simp only [hrv, if_true]
      by_cases h2 : testall = 2
      -- `xp` is taken out: the next element gets its metric later
      · simp only [h2, if_true]
        exact ih (h.takeOut _)
      have hst : (if testall = 1 then { st with selected := true } else st) =
          { st with selected := testall = 1 || st.selected, insertp := st.insertp } := by
        by_cases h1 : testall = 1 <;> simp [h1]
      obtain ⟨x, hk⟩ := h.keep (Or.inl rfl) (testall = 1 || st.selected)
      simp only [h2, if_false, hst]
      -- the scan ends here, or goes on with the place unchanged
      split_ifs with h0
      · exact hk.exact (Or.inl (InsertScan.fixup_removed ..))
      · exact ih hk
    · simp only [hrv, if_false]
      -- in all other cases the place moves behind `xp` or stays
      obtain ⟨ip, sel, hip, hst⟩ : ∃ ip sel, (ip = st.insertp ∨ ip = some xp) ∧
          (if (!(if testall = 2 then { st with selected := false } else st).selected) = true then
            { (if testall = 2 then { st with selected := false } else st) with insertp := some xp }
          else (if testall = 2 then { st with selected := false } else st)) =
            { st with selected := sel, insertp := ip } := by
        by_cases h2 : testall = 2
        · exact ⟨some xp, false, Or.inr rfl, by simp [h2]⟩
        · simp only [h2, if_false]
          split_ifs
          · exact ⟨some xp, st.selected, Or.inr rfl, rfl⟩
          · exact ⟨st.insertp, st.selected, Or.inl rfl, rfl⟩
      obtain ⟨x, hk⟩ := h.keep hip sel
      rw [hst]
      exact ih hk

/-! ## Insertion -/

/-- Putting a path into an exact queue and noting the metric of both sides. -/
theorem exact_middle {A B : List Prefix} {x : Prefix} {pp : Option Prefix}
    (hnd : ((A ++ x :: B).map (·.ptr)).Nodup) (h : Exact c (A ++ B))
    (hpp : pp.map Prefix.core = A.getLast?.map Prefix.core) :
    Exact c (prefixSetDmetric c (prefixSetDmetric c (A ++ x :: B) pp (some x)) (some x)
      (tailqNext (prefixSetDmetric c (A ++ x :: B) pp (some x)) x.ptr)) := by
  rw [prefixSetDmetric_middle hnd rfl]
  set x' : Prefix := { x with dmetric := metric c pp x } with hx'
  have hcore : x'.core = x.core := rfl
  have hnd' : ((A ++ x' :: B).map (·.ptr)).Nodup := by simpa [hx'] using hnd
  have hnext : tailqNext (A ++ x' :: B) x.ptr = B.head? := tailqNext_middle rfl hnd'
  rw [hnext]
  obtain ⟨hA, hB, -⟩ := linked_append.mp h.links
  -- the new element carries the metric to the one before it
  have hlast : ∀ y ∈ A.getLast?, x'.dmetric = metric c (some y) x' := by
    intro y hy
    rw [Option.mem_def.mp hy] at hpp
    exact metric_map_core hpp rfl
  -- and is the head if there is none
  have hhead : ∀ t, HeadExact c (A ++ x' :: t) := by
    intro t
    rcases List.eq_nil_or_concat A with rfl | ⟨A', a, rfl⟩
    · intro z hz
      rw [List.nil_append, List.head?_cons, Option.mem_some_iff] at hz
      subst hz
      exact metric_map_core (by simpa using hpp) rfl
    · have hne : A' ++ [a] ≠ [] := by simp
      rw [List.concat_eq_append] at h ⊢
      exact (headExact_append hne).mpr ((headExact_append hne).mp h.head)
  cases B with
  | nil =>
    exact ⟨hhead [], hA.join (List.isChain_singleton _) hlast⟩
  -- the metric of the element behind it is set again
  | cons b B =>
    have hsplit : A ++ x' :: b :: B = (A ++ [x']) ++ b :: B := by simp
    rw [List.head?_cons, hsplit, prefixSetDmetric_middle (by simpa using hnd') rfl,
      List.append_assoc, List.singleton_append]
    refine ⟨hhead _, hA.join ?_ hlast⟩
    refine linked_cons.mpr ⟨fun y hy => ?_, hB.replace_head rfl⟩
    rw [List.head?_cons, Option.mem_some_iff] at hy
    subst hy
    exact metric_core hcore.symm rfl

/-- One level of `prefix_insert` keeps the queue exact. -/
theorem insertLevel_exact {new : Prefix} {ep : Option Prefix} {P T : List Prefix}
    (hnd : ((new :: (P ++ T)).map (·.ptr)).Nodup) (hE : Entry c new ep P T)
    (h : Exact c (P ++ T)) : Exact c (insertLevel c new ep (P ++ T)).1 := by
  have hnd₀ := (List.nodup_cons.mp hnd).2
  have hstart : Exact c (insertScan c new T { h := P ++ T, insertp := ep }).h ∧
      ∀ q ∈ (insertScan c new T { h := P ++ T, insertp := ep }).insertp,
        q.core ∈ coreList (insertScan c new T { h := P ++ T, insertp := ep }).h := by
    cases hE with
    -- without an entry point the scan starts at the head
    | head =>
      refine insertScan_exact new (B := [])
        ⟨⟨rfl, hnd₀, List.isChain_nil, h.links, fun _ => h.links⟩,
        ?_, fun _ => h.head, by simp⟩
      exact fun x hx => by simp at hx
    -- the scan starts behind the entry point, whose metric was right
    | @«at» _ R ep e _ hov =>
      rw [insertScan_at hov]
      have hsplit : P ++ e :: R = (P ++ [e]) ++ R := by simp
      rw [hsplit] at h hnd₀ ⊢
      have hl := linked_append.mp h.links
      exact insertScan_exact new ⟨⟨rfl, hnd₀, hl.1, hl.2.1, fun _ => h.links⟩,
        (headExact_append (by simp)).mp h.head, fun _ => h.head, by simp⟩
  have hsim := insertScan_entry hnd₀ hE
  have hsub := gapScan_sublist (c := c) new.core (coreList T) { before := coreList P }
  simp only [insertLevel, hE.scanStart hnd₀]
  generalize insertScan c new T { h := P ++ T, insertp := ep } = st at hstart hsim ⊢
  obtain ⟨hex, hpoint⟩ := hstart
  have hst : ((new :: st.h).map (·.ptr)).Nodup := by
    have hq := hsim.queue
    rw [coreList_nil, List.append_nil] at hq
    rw [← hq, List.append_nil, ← coreList_append] at hsub
    rw [← coreList_ptr] at hnd ⊢
    exact hnd.sublist ((hsub.cons_cons _).map _)
  cases hip : st.insertp with
  -- the place is the head of the queue
  | none =>
    exact exact_middle (A := []) hst hex rfl
  -- the place is behind an element of the queue
  | some q =>
    obtain ⟨A, B, a, hh, ha⟩ := coreList_split (hpoint q hip)
    have hqa : q.ptr = a.ptr := by rw [← Prefix.core_ptr, ← ha, Prefix.core_ptr]
    rw [hh] at hst hex ⊢
    simp only [insertAtPoint, hqa, tailqInsertAfter_middle (List.nodup_cons.mp hst).2]
    have hsplit : A ++ a :: new :: B = (A ++ [a]) ++ new :: B := by simp
    rw [hsplit]
    refine exact_middle ?_ (by simpa using hex) (by simp [ha])
    rw [List.map_append, List.map_cons, List.nodup_middle]
    simpa using hst

/-- **Insertion**: `prefix_insert` keeps the queue exact. -/
theorem prefixInsert_exact {new : Prefix} {h : List Prefix}
    (hnd : ((new :: h).map (·.ptr)).Nodup) (hx : Exact c h) :
    Exact c (prefixInsert c new none h) :=
  (prefixInsert_levels (fun hnd hE _ hQ => insertLevel_exact hnd hE hQ) hnd
    (List.Subperm.refl _) hx).2

/-! ## Removal -/

/-- The scan of `prefix_remove` leaves the part behind the old path linked. -/
theorem removeScan_linked (old : Prefix) {X B todo : List Prefix} {st : RemoveScan}
    (h : Scanned c X B todo st.h st.removed) :
    ∃ Z, (removeScan c old todo st).h = X ++ Z ∧ ((X ++ Z).map (·.ptr)).Nodup ∧ Linked c Z := by
  induction todo generalizing B st with
  | nil =>
    refine ⟨B, ?_, ?_, h.kept⟩
    · simpa [removeScan] using h.queue
    · simpa using h.nodup
  | cons xp np ih =>
    rw [removeScan]
    generalize (prefixCmp c (some old) (some xp)).2 = testall
    dsimp only
    by_cases h2 : testall = 2
    · simp only [h2, if_true]
      exact ih h.takeOut
    · have hst : (if st.removed = true then
            { st with
              h := prefixSetDmetric c st.h (tailqPrev st.h xp.ptr) (some xp), removed := false }
          else st) = { st with h := fixedQueue c st.removed st.h xp, removed := false } := by
        obtain ⟨sh, removed, redo⟩ := st
        cases removed <;> rfl
      obtain ⟨x, -, hk, -⟩ := h.keep
      simp only [h2, if_false, hst]
      split_ifs
      · exact ⟨B ++ [x] ++ np, by simpa using hk.queue, by simpa using hk.nodup, hk.link rfl⟩
      · exact ih hk

/-- Noting the metric where two linked parts of the queue meet. -/
theorem exact_join {X Z : List Prefix} (hnd : ((X ++ Z).map (·.ptr)).Nodup)
    (hhead : HeadExact c X) (hX : Linked c X) (hZ : Linked c Z) :
    Exact c (prefixSetDmetric c (X ++ Z) X.getLast? Z.head?) := by
  cases Z with
  | nil =>
    rw [List.append_nil]
    exact ⟨hhead, hX⟩
  | cons z Z =>
    rw [List.head?_cons, prefixSetDmetric_middle hnd rfl]
    refine ⟨?_, hX.join (hZ.replace_head rfl) fun y hy => ?_⟩
    · rcases List.eq_nil_or_concat X with rfl | ⟨X', x, rfl⟩
      · intro w hw
        rw [List.nil_append, List.head?_cons, Option.mem_some_iff] at hw
        subst hw
        rfl
      · rw [List.concat_eq_append] at hhead ⊢
        exact (headExact_append (by simp)).mpr hhead
    · rw [Option.mem_def.mp hy]
      rfl

/-- `prefix_remove` leaves an exact queue before the reinsertion. -/
theorem removeLevel_exact {old o : Prefix} {X Y : List Prefix} (ho : o.ptr = old.ptr)
    (hnd : ((X ++ o :: Y).map (·.ptr)).Nodup) (h : Exact c (X ++ o :: Y)) :
    Exact c (removeLevel c old (X ++ o :: Y)).1 := by
  obtain ⟨hX, hoY, -⟩ := linked_append.mp h.links
  have hY : Linked c Y := (linked_cons.mp hoY).2
  have hhead : HeadExact c X := by
    rcases List.eq_nil_or_concat X with rfl | ⟨X', x, rfl⟩
    · exact fun x hx => by simp at hx
    · rw [List.concat_eq_append] at h ⊢
      exact (headExact_append (by simp)).mp h.head
  have hndXY : ((X ++ Y).map (·.ptr)).Nodup :=
    hnd.sublist (((List.sublist_cons_self ..).append_left _).map _)
  have hdrop : (X ++ o :: Y).dropWhile (fun x => x.ptr ≠ old.ptr) = o :: Y := by
    rw [← ho]
    exact dropWhile_ptr hnd
  have hrem : tailqRemove (X ++ o :: Y) old.ptr = X ++ Y := by
    rw [← ho]
    exact tailqRemove_middle hnd
  simp only [removeLevel, hdrop, hrem, tailqNext_middle ho hnd, tailqPrev_middle ho hnd,
    List.drop_one, List.tail_cons]
  -- what the scan leaves behind the old place is linked again
  obtain ⟨Z, hq, hndZ, hZ⟩ : ∃ Z, (if (prefixCmp c (some old) Y.head?).2 > 0 then
      removeScan c old Y { h := X ++ Y } else ({ h := X ++ Y } : RemoveScan)).h = X ++ Z ∧
        ((X ++ Z).map (·.ptr)).Nodup ∧ Linked c Z := by
    split_ifs
    · exact removeScan_linked old (B := []) ⟨by simp, by simpa using hndXY, List.isChain_nil, hY,
        fun _ => hY⟩
    · exact ⟨Y, rfl, hndXY, hY⟩
  rw [hq]
  have hjoin := exact_join hndZ hhead hX hZ
  cases hlast : X.getLast? with
  -- without an element before the gap there is nothing to link
  | none =>
    rw [List.getLast?_eq_none_iff] at hlast
    subst hlast
    exact hjoin
  | some p =>
    rw [hlast] at hjoin
    obtain ⟨X', rfl⟩ := List.getLast?_eq_some_iff.mp hlast
    have hnext : tailqNext (X' ++ [p] ++ Z) p.ptr = Z.head? := by
      rw [List.append_assoc, List.singleton_append] at hndZ ⊢
      exact tailqNext_middle rfl hndZ
    simp only [hnext]
    exact hjoin

/-- **Removal**: `prefix_remove` keeps the queue exact. -/
theorem prefixRemove_exact {old o : Prefix} {X Y : List Prefix} (ho : o.ptr = old.ptr)
    (hnd : ((X ++ o :: Y).map (·.ptr)).Nodup) (h : Exact c (X ++ o :: Y)) :
    Exact c (prefixRemove c old (X ++ o :: Y)) :=
  (prefixRemove_levels (fun hnd hE _ hQ => insertLevel_exact hnd hE hQ) ho hnd
    (List.Subperm.refl _) (removeLevel_exact ho hnd h)).2

/-! ## Positive metrics -/

/-- The first of two paths wins against the second one, as far as the ranking knows. -/
theorem Verdict.pos {r : Ranking Prefix (List ℤ) ℕ} {x y : Prefix} {res : ℤ × ℕ}
    (hv : Verdict r x y res)
    (h : r.level x < r.level y ∨ r.Blocks x y ∨
      (r.level x = r.level y ∧ ¬ r.Blocks y x ∧ r.key x < r.key y)) : res.1 > 0 := by
  cases hv with
  | above hrv => exact hrv
  | blocks hrv => exact hrv
  | better hrv => exact hrv
  | below _ hlt =>
    rcases h with h | h | ⟨h, -⟩
    · exact absurd hlt h.not_gt
    · exact absurd h.1 hlt.ne'
    · exact absurd h hlt.ne'
  | blocked _ hb =>
    rcases h with h | h | ⟨-, h, -⟩
    · exact absurd hb.1 h.ne'
    · exact absurd hb.2.2 h.2.2.not_gt
    · exact absurd hb h
  | worse _ hl _ hb hk =>
    rcases h with h | h | ⟨-, -, h⟩
    · exact absurd hl h.ne'
    · exact absurd h hb
    · exact absurd hk h.not_gt

/-- In a canonical queue every path wins against the one behind it. -/
theorem prefixCmp_adjacent {r : Ranking Prefix (List ℤ) ℕ} {A B : List Prefix} {x y : Prefix}
    (hr : RankedBy c r (A ++ x :: y :: B)) (h : CanonBy r (A ++ x :: y :: B)) :
    (prefixCmp c (some x) (some y)).1 > 0 := by
  cases hy : prefixEligible y with
  | false =>
    rw [prefixCmp_ineligible_right x hy]
    decide
  | true =>
    have hxy : [x, y].Sublist (A ++ x :: y :: B) :=
      ((List.nil_sublist B).cons_cons y |>.cons_cons x).trans (List.sublist_append_right ..)
    have hx : prefixEligible x :=
      List.pairwise_iff_forall_sublist.mp h.first hxy hy
    have hcanon := h.canon
    simp only [List.filter_append, List.filter_cons, hx, hy, if_true] at hcanon
    exact (List.pairwise_iff_forall_sublist.mp hr hxy hx hy).1.pos hcanon.adjacent

/-! ## Runs -/

/-- The decision process as a store of paths: one insertion or one removal. -/
def queueStep (c : DecideCtx) (h : List Prefix) : EvalOp → Option (List Prefix)
  | .insert p => some (prefixInsert c p none h)
  | .remove p => some (prefixRemove c p h)

/-- A new path is not listed yet and no step key ties with a listed path; an old path is listed
    as it is. -/
def OpOk (c : DecideCtx) (h : List Prefix) : EvalOp → Prop
  | .insert p => p.ptr ∉ h.map (·.ptr) ∧
      ∀ x ∈ h, prefixEligible p → prefixEligible x → ¬Tied c p x
  | .remove p => p.core ∈ coreList h

/-- The paths that were inserted and not removed. -/
def present : List EvalOp → List Prefix → List Prefix
  | [], l => l
  | .insert p :: ops, l => present ops (p.core :: l)
  | .remove p :: ops, l => present ops (l.filter fun x => x.ptr ≠ p.ptr)

/-- The invariant of the queue along a run. -/
structure ListInv (c : DecideCtx) (h : List Prefix) : Prop where
  nodup : (h.map (·.ptr)).Nodup
  ranked : RankedBy c (ageRanking c) (coreList h)
  canon : CanonBy (ageRanking c) (coreList h)
  exact : Exact c h

theorem Tied.symm {p q : Prefix} (h : Tied c p q) : Tied c q p := by
  obtain ⟨hl, hm, hk⟩ := tied_iff.mp h
  exact tied_iff.mpr ⟨hl.symm, fun hs => (hm (hs.imp_right Eq.symm)).symm, hk.symm⟩

theorem tied_core {p q : Prefix} : Tied c p.core q.core ↔ Tied c p q := by
  rw [tied_iff, tied_iff]
  rfl

/-- A path that ties with no listed one is ranked among them. -/
theorem RankedBy.cons {p : Prefix} {h : List Prefix}
    (hr : RankedBy c (ageRanking c) (coreList h))
    (hp : ∀ x ∈ h, prefixEligible p → prefixEligible x → ¬Tied c p x) :
    RankedBy c (ageRanking c) (coreList (p :: h)) := by
  rw [coreList_cons]
  refine List.pairwise_cons.mpr ⟨fun x hx hpe hxe => ?_, hr⟩
  obtain ⟨x, hxh, rfl⟩ := List.mem_map.mp hx
  have ht : ¬Tied c p.core x.core := fun ht => hp x hxh hpe hxe (tied_core.mp ht)
  exact ⟨ageVerdict hpe hxe ht, ageVerdict hxe hpe fun h => ht h.symm⟩

theorem listInv_nil : ListInv c [] :=
  ⟨List.nodup_nil, List.Pairwise.nil, ⟨List.Pairwise.nil, trivial⟩, exact_nil⟩

/-- Every insertion and every removal keeps the invariant, and changes the set of paths as
    asked. -/
theorem ListInv.step {h h' : List Prefix} {op : EvalOp} (hi : ListInv c h)
    (hok : OpOk c h op) (hs : queueStep c h op = some h') :
    ListInv c h' ∧ (coreList h').Perm (present [op] (coreList h)) := by
  cases op with
  | insert p =>
    rw [queueStep, Option.some.injEq] at hs
    subst hs
    have hnd : ((p :: h).map (·.ptr)).Nodup := List.nodup_cons.mpr ⟨hok.1, hi.nodup⟩
    have hr := hi.ranked.cons hok.2
    have hp := prefixInsert_perm (c := c) hnd
    exact ⟨⟨nodup_of_coreList_perm hp (by simpa using hnd), hr.of_subperm hp.subperm,
      canonBy_prefixInsert hnd hr hi.canon, prefixInsert_exact hnd hi.exact⟩, hp⟩
  | remove p =>
    rw [queueStep, Option.some.injEq] at hs
    subst hs
    obtain ⟨X, Y, o, rfl, ho⟩ := coreList_split hok
    have hptr : o.ptr = p.ptr := by rw [← Prefix.core_ptr, ho, Prefix.core_ptr]
    have hp := prefixRemove_perm (c := c) hptr hi.nodup
    have hsub : (X ++ Y).Sublist (X ++ o :: Y) := (List.sublist_cons_self ..).append_left _
    have hleft : tailqRemove (X ++ o :: Y) p.ptr = X ++ Y := by
      rw [← hptr]
      exact tailqRemove_middle hi.nodup
    refine ⟨⟨nodup_of_coreList_perm hp (by simpa using hi.nodup.sublist (hsub.map _)),
      hi.ranked.of_subperm (hp.subperm.trans (hsub.map _).subperm),
      canonBy_prefixRemove ho hi.nodup hi.ranked hi.canon,
      prefixRemove_exact hptr hi.nodup hi.exact⟩, ?_⟩
    rw [← hleft, coreList_tailqRemove] at hp
    exact hp

theorem present_cons (op : EvalOp) (ops : List EvalOp) (l : List Prefix) :
    present (op :: ops) l = present ops (present [op] l) := by
  cases op <;> rfl

theorem present_perm {l k : List Prefix} (h : l.Perm k) (ops : List EvalOp) :
    (present ops l).Perm (present ops k) := by
  induction ops generalizing l k with
  | nil => exact h
  | cons op ops ih =>
    cases op with
    | insert p => exact ih (h.cons _)
    | remove p => exact ih (h.filter _)

theorem ListInv.run {h h' : List Prefix} {ops : List EvalOp} (hi : ListInv c h)
    (hr : Run (queueStep c) (OpOk c) h ops h') :
    ListInv c h' ∧ (coreList h').Perm (present ops (coreList h)) := by
  induction hr with
  | nil h => exact ⟨hi, List.Perm.refl _⟩
  | @cons h h₁ h' op ops hok hs _ ih =>
    obtain ⟨hi₁, hp₁⟩ := hi.step hok hs
    obtain ⟨hi', hp'⟩ := ih hi₁
    rw [present_cons]
    exact ⟨hi', hp'.trans (present_perm hp₁ ops)⟩

theorem ListInv.pos {A B : List Prefix} {x y : Prefix} (hi : ListInv c (A ++ x :: y :: B)) :
    y.dmetric = (prefixCmp c (some x) (some y)).1 ∧ y.dmetric > 0 := by
  have hd : y.dmetric = (prefixCmp c (some x) (some y)).1 :=
    (linked_cons.mp (linked_append.mp hi.exact.links).2.1).1 y rfl
  refine ⟨hd, ?_⟩
  have hr := hi.ranked
  have hq := hi.canon
  simp only [coreList_append, coreList_cons] at hr hq
  rw [hd, ← prefixCmp_core]
  exact prefixCmp_adjacent hr hq

/-- **The decision metric describes the list.** The insertion ends for every list, and after every
    run of insertions and removals without ties the list holds the present paths once each, the
    head says whether it is eligible, and every other path by which step it loses against the path
    before it. -/
theorem queueRun_dmetric (c : DecideCtx) :
    (∀ (new : Prefix) (h : List Prefix), ((new :: h).map (·.ptr)).Nodup →
      (∀ fuel, h.length < fuel →
        prefixInsertFuel c fuel new none h = prefixInsert c new none h) ∧
      (coreList (prefixInsert c new none h)).Perm (new.core :: coreList h)) ∧
    ∀ (ops : List EvalOp) (h : List Prefix), Run (queueStep c) (OpOk c) [] ops h →
      (coreList h).Perm (present ops []) ∧ (h.map (·.ptr)).Nodup ∧
      (∀ x ∈ h.head?, x.dmetric = if prefixEligible x then dmetricBest else dmetricInvalid) ∧
      ∀ A x y B, h = A ++ x :: y :: B →
        y.dmetric = (prefixCmp c (some x) (some y)).1 ∧ y.dmetric > 0 := by
  refine ⟨fun new h hnd => ⟨fun fuel hf => prefixInsert_eq hnd hf, prefixInsert_perm hnd⟩,
    fun ops h hr => ?_⟩
  obtain ⟨hi, hp⟩ := listInv_nil.run hr
  refine ⟨hp, hi.nodup, hi.exact.head, ?_⟩
  rintro A x y B rfl
  exact hi.pos

instance (p q : Prefix) : Decidable (SameMed c p q) :=
  inferInstanceAs (Decidable (_ ∨ _ → _))

instance (p q : Prefix) : Decidable (Tied c p q) := decidable_of_iff _ tied_iff.symm

instance (h : List Prefix) (op : EvalOp) : Decidable (OpOk c h op) :=
  match op with
  | .insert p => inferInstanceAs (Decidable (p.ptr ∉ h.map (·.ptr) ∧
      ∀ x ∈ h, prefixEligible p → prefixEligible x → ¬Tied c p x))
  | .remove p => inferInstanceAs (Decidable (p.core ∈ coreList h))

theorem queueRun_dmetric_circle :
    prefixInsertFuel circleCtx 7 (circlePath 1 10 100) none [circlePath 2 0 200] =
        prefixInsert circleCtx (circlePath 1 10 100) none [circlePath 2 0 200] ∧
      ∃ h, Run (queueStep circleCtx) (OpOk circleCtx) []
          [.insert (circlePath 1 10 100), .insert (circlePath 4 1 100),
            .insert (circlePath 2 0 200), .insert (circlePath 3 5 100),
            .remove (circlePath 4 1 100)] h ∧
        h.map (·.dmetric) = [dmetricBest, 4, 2] ∧
        (coreList h).Perm [circlePath 3 5 100, circlePath 2 0 200, circlePath 1 10 100] := by
  obtain ⟨h, hr, hd⟩ := exists_run (queueStep circleCtx) (OpOk circleCtx) []
    [.insert (circlePath 1 10 100), .insert (circlePath 4 1 100), .insert (circlePath 2 0 200),
      .insert (circlePath 3 5 100), .remove (circlePath 4 1 100)]
    (fun h => h.map (·.dmetric) = [dmetricBest, 4, 2]) (by decide)
  obtain ⟨hfuel, hrun⟩ := queueRun_dmetric circleCtx
  exact ⟨(hfuel (circlePath 1 10 100) [circlePath 2 0 200] (by decide)).1 7 (by decide), h, hr, hd,
    (hrun _ h hr).1⟩

end Bgpd.Rde
