import Bgpd.Rde.Pending
import Bgpd.Rde.RibSpec

/-!
# Pending Updates Point to Listed Paths

A path that is removed is reported under its path id, and the report takes the place of the pending
entry that points to the path. But with `rde_eval_all` off nothing is stored, and in a RIB without
decision process nothing is reported. So pending entries dangle if a reload switches one of them
off while there are pending entries that point to paths.

## Main results

- `EntryPending`, `PendingInv`: the invariant
- `EntryPending.evaluated`: a change of the list and its report
- `PendingInv.prefixUpdate`, `PendingInv.prefixWithdraw`, `PendingInv.evaluateNexthop`: changes of
  the RIBs
-/

namespace Bgpd.Rde

variable {cfg : RdeConfig} {s s' : RdeState} {rib : ℕ} {pt : PtEntry} {re : RibEntry}
  {c : DecideCtx} {flags : RibFlags} {ev : Evaluation} {evalAll armed : Bool} {selfId : ℕ}
  {h h' : List Prefix} {new old : Option Prefix}

/-! ## Lists of paths -/

/-- What pending entries and lookups know about a path. -/
def Prefix.ident (p : Prefix) : Ptr × ℕ × PeerId × ℕ := (p.ptr, p.pathIdTx, p.peer, p.pathId)

def idents (h : List Prefix) : List (Ptr × ℕ × PeerId × ℕ) := h.map Prefix.ident

theorem ident_ptr {p x : Prefix} (h : p.ident = x.ident) : p.ptr = x.ptr := congrArg (·.1) h

theorem ident_id {p x : Prefix} (h : p.ident = x.ident) : p.pathIdTx = x.pathIdTx :=
  congrArg (·.2.1) h

theorem ident_path {p x : Prefix} (h : p.ident = x.ident) :
    (p.peer, p.pathId) = (x.peer, x.pathId) := congrArg (·.2.2) h

theorem idents_coreList (h : List Prefix) : (coreList h).map Prefix.ident = idents h := by
  rw [coreList, idents, List.map_map]
  rfl

/-- The old path leaves the list. -/
theorem idents_removeOld (hnd : (h.map (·.ptr)).Nodup)
    (hold : ∀ o ∈ old, o.ident ∈ idents h) :
    (idents h).Perm ((old.map Prefix.ident).toList ++ idents (removeOld c old h)) := by
  cases old with
  | none => exact List.Perm.refl _
  | some o =>
    obtain ⟨x, hx, hident⟩ := List.mem_map.mp (hold o rfl)
    obtain ⟨X, Y, rfl⟩ := List.append_of_mem hx
    have hptr : x.ptr = o.ptr := ident_ptr hident
    have hperm := (prefixRemove_perm (c := c) hptr hnd).map Prefix.ident
    rw [idents_coreList, idents_coreList] at hperm
    refine List.Perm.trans ?_ (List.Perm.cons o.ident hperm.symm)
    rw [← hident, idents, List.map_append, List.map_cons, idents, List.map_append]
    exact List.perm_middle

/-- `TAILQ_REMOVE` -/
theorem idents_tailqRemove (hnd : (h.map (·.ptr)).Nodup) {o : Prefix} (ho : o.ident ∈ idents h) :
    (idents h).Perm (o.ident :: idents (tailqRemove h o.ptr)) := by
  induction h with
  | nil => cases ho
  | cons x h ih =>
    obtain ⟨hx, hnd⟩ := List.nodup_cons.mp hnd
    rcases List.mem_cons.mp ho with heq | ho
    · have hptr : x.ptr = o.ptr := (ident_ptr heq).symm
      have hall : tailqRemove (x :: h) o.ptr = h := by
        rw [tailqRemove, List.filter_cons_of_neg (by simpa using hptr), List.filter_eq_self]
        exact fun y hy => decide_eq_true fun hyo =>
          hx (List.mem_map.mpr ⟨y, hy, hyo.trans hptr.symm⟩)
      rw [hall, heq]
      exact List.Perm.refl _
    · obtain ⟨y, hy, hident⟩ := List.mem_map.mp ho
      have hne : x.ptr ≠ o.ptr := fun hptr =>
        hx (List.mem_map.mpr ⟨y, hy, (ident_ptr hident).trans hptr.symm⟩)
      have hcons : tailqRemove (x :: h) o.ptr = x :: tailqRemove h o.ptr :=
        List.filter_cons_of_pos (decide_eq_true hne)
      rw [hcons]
      exact ((ih hnd ho).cons x.ident).trans (List.Perm.swap _ _ _)

theorem idents_insertNew (hnd : ∀ n ∈ new, ((n :: h).map (·.ptr)).Nodup) :
    (idents (insertNew c new h)).Perm ((new.map Prefix.ident).toList ++ idents h) := by
  cases new with
  | none => exact List.Perm.refl _
  | some n =>
    have hperm := (prefixInsert_perm (c := c) (hnd n rfl)).map Prefix.ident
    rw [List.map_cons, idents_coreList, idents_coreList] at hperm
    exact hperm

theorem ptrs_idents (h : List Prefix) : (idents h).map (·.1) = h.map (·.ptr) := by
  rw [idents, List.map_map]
  rfl

theorem paths_idents (h : List Prefix) :
    (idents h).map (·.2.2) = h.map fun p => (p.peer, p.pathId) := by
  rw [idents, List.map_map]
  rfl

/-- The addresses of the paths are used once, and so are the names that peers give to them. -/
structure KeysNodup (h : List Prefix) : Prop where
  ptrs : (h.map (·.ptr)).Nodup
  paths : (h.map fun p => (p.peer, p.pathId)).Nodup

theorem KeysNodup.perm (hk : KeysNodup h) (hperm : (idents h').Perm (idents h)) : KeysNodup h' where
  ptrs := by
    rw [← ptrs_idents, (hperm.map _).nodup_iff, ptrs_idents]
    exact hk.ptrs
  paths := by
    rw [← paths_idents, (hperm.map _).nodup_iff, paths_idents]
    exact hk.paths

/-- `new` takes the place of `old`, which is listed; it has the path id of `old`, and no other path
    has its address or its name. -/
structure TakesPlace (h : List Prefix) (new old : Option Prefix) : Prop where
  listed : ∀ o ∈ old, o.ident ∈ idents h
  same : ∀ n ∈ new, ∀ o ∈ old, n.pathIdTx = o.pathIdTx
  ptr : ∀ n ∈ new, ∀ x ∈ h, x.ptr = n.ptr → ∃ o ∈ old, x.ptr = o.ptr
  path : ∀ n ∈ new, ∀ x ∈ h, (x.peer, x.pathId) = (n.peer, n.pathId) →
    ∃ o ∈ old, (x.peer, x.pathId) = (o.peer, o.pathId)

/-- The other paths, which are in the list before and after the change. -/
structure Changed (h h' : List Prefix) (new old : Option Prefix)
    (rest : List (Ptr × ℕ × PeerId × ℕ)) : Prop where
  before : (idents h).Perm ((old.map Prefix.ident).toList ++ rest)
  after : (idents h').Perm ((new.map Prefix.ident).toList ++ rest)

variable {rest : List (Ptr × ℕ × PeerId × ℕ)}

/-- A key of the other paths is not a key of the old one. -/
theorem nodup_new {β : Type} {f : Ptr × ℕ × PeerId × ℕ → β}
    (hbefore : (idents h).Perm ((old.map Prefix.ident).toList ++ rest))
    (hnd : ((idents h).map f).Nodup)
    (hnew : ∀ n ∈ new, ∀ x ∈ h, f x.ident = f n.ident → ∃ o ∈ old, f x.ident = f o.ident) :
    (((new.map Prefix.ident).toList ++ rest).map f).Nodup := by
  have hnd' := (hbefore.map f).nodup_iff.mp hnd
  rw [List.map_append] at hnd' ⊢
  cases hn : new with
  | none => exact hnd'.of_append_right
  | some n =>
    rw [Option.map_some, Option.toList_some, List.map_cons, List.map_nil, List.singleton_append,
      List.nodup_cons]
    refine ⟨fun hmem => ?_, hnd'.of_append_right⟩
    obtain ⟨y, hy, hyn⟩ := List.mem_map.mp hmem
    obtain ⟨x, hx, rfl⟩ := List.mem_map.mp (hbefore.mem_iff.mpr (List.mem_append_right _ hy))
    obtain ⟨o, ho, hxo⟩ := hnew n hn x hx hyn
    obtain rfl : old = some o := ho
    rw [Option.map_some, Option.toList_some, List.map_cons, List.map_nil, List.singleton_append,
      List.nodup_cons] at hnd'
    exact hnd'.1 (List.mem_map.mpr ⟨x.ident, hy, hxo⟩)

theorem Changed.keysNodup (hc : Changed h h' new old rest) (hk : KeysNodup h)
    (ht : TakesPlace h new old) : KeysNodup h' where
  ptrs := by
    have hnd := nodup_new (f := fun i => i.1) hc.before (ptrs_idents h ▸ hk.ptrs) ht.ptr
    rw [← ptrs_idents]
    exact (hc.after.map _).nodup_iff.mpr hnd
  paths := by
    have hnd := nodup_new (f := fun i => i.2.2) hc.before (paths_idents h ▸ hk.paths) ht.path
    rw [← paths_idents]
    exact (hc.after.map _).nodup_iff.mpr hnd

/-- If nothing is inserted, what is there was there. -/
theorem Changed.ne_nil (hc : Changed h h' new old rest) (hnew : new = none) (hne : h' ≠ []) :
    h ≠ [] := by
  obtain ⟨p, hp⟩ := List.exists_mem_of_ne_nil _ hne
  have hmem := hc.after.mem_iff.mp (List.mem_map_of_mem hp)
  rw [hnew, Option.map_none, Option.toList_none, List.nil_append] at hmem
  obtain ⟨x, hx, -⟩ := List.mem_map.mp (hc.before.mem_iff.mpr (List.mem_append_right _ hmem))
  exact List.ne_nil_of_mem hx

/-- Removal and insertion by the decision process. -/
theorem changed_evaluate (hk : KeysNodup h) (ht : TakesPlace h new old) :
    Changed h (insertNew c new (removeOld c old h)) new old (idents (removeOld c old h)) := by
  have hbefore := idents_removeOld (c := c) hk.ptrs ht.listed
  refine ⟨hbefore, idents_insertNew fun n hn => ?_⟩
  have hnd := nodup_new (f := fun i => i.1) hbefore (ptrs_idents h ▸ hk.ptrs) ht.ptr
  rw [hn, Option.map_some, Option.toList_some, List.singleton_append, List.map_cons,
    ptrs_idents] at hnd
  exact hnd

/-- With the decision process turned off, paths are linked and unlinked. -/
theorem prefixEvaluate_raw (hk : KeysNodup h) (ht : TakesPlace h new old)
    (hev : flags.noevaluate = true)
    (hrun : prefixEvaluate c flags evalAll h new old = some ev) :
    ∃ rest, Changed h ev.h new old rest ∧ ev.enqueue = none := by
  unfold prefixEvaluate at hrun
  split_ifs at hrun with hnone
  obtain rfl := Option.some.inj hrun
  cases old with
  | none =>
    cases new with
    | none => exact absurd rfl hnone
    | some n => exact ⟨idents h, ⟨List.Perm.refl _, List.Perm.refl _⟩, rfl⟩
  | some o =>
    have hbefore := idents_tailqRemove hk.ptrs (ht.listed o rfl)
    cases new with
    | none => exact ⟨_, ⟨hbefore, List.Perm.refl _⟩, rfl⟩
    | some n => exact ⟨_, ⟨hbefore, List.Perm.refl _⟩, rfl⟩

/-! ## What is reported -/

theorem prefixBest_setMetric (h : List Prefix) (q : Ptr) (d : ℤ) :
    (prefixBest flags (h.map (setMetric q d))).map (·.ptr) = (prefixBest flags h).map (·.ptr) := by
  unfold prefixBest
  split_ifs
  · rfl
  · cases h with
    | nil => rfl
    | cons x h =>
      rw [List.map_cons, List.head?_cons, List.head?_cons, Option.filter_some, Option.filter_some,
        setMetric_eligible]
      split_ifs
      · exact congrArg some (setMetric_ptr q d x)
      · rfl

/-- An ineligible path does not become the best one, and the best one stays, whatever the order of
    the list. -/
theorem prefixBest_insert_ineligible {n : Prefix} (hn : prefixEligible n = false) :
    (prefixBest flags (prefixInsert c n none h)).map (·.ptr) =
      (prefixBest flags h).map (·.ptr) := by
  -- the paths before the first one that is not eligible
  obtain ⟨E, I, hsplit, hE, hI⟩ : ∃ E I, h = E ++ I ∧ (∀ x ∈ E, prefixEligible x) ∧
      ∀ x ∈ I.head?, prefixEligible x = false := by
    refine ⟨h.takeWhile prefixEligible, h.dropWhile prefixEligible,
      (List.takeWhile_append_dropWhile ..).symm, fun x hx => ?_, fun x hx => ?_⟩
    · exact List.all_eq_true.mp List.all_takeWhile x hx
    · have hhead := List.head?_dropWhile_not prefixEligible h
      rwa [hx] at hhead
  have hscan : insertScan c n h { h := h, insertp := none } =
      { h := h, insertp := E.getLast? } := by
    have := insertScan_ineligible (c := c) hn hE hI h none
    rw [← hsplit] at this
    rw [this, Option.or_none]
  -- the insertion writes one element and two metrics
  have hunf : ∃ d d', prefixInsert c n none h =
      ((insertAtPoint h E.getLast? n).map (setMetric n.ptr d)).map
        (setMetric (d' : Ptr × ℤ).1 d'.2) := by
    have hdef : prefixInsert c n none h = prefixSetDmetric c
        (prefixSetDmetric c (insertAtPoint h E.getLast? n) E.getLast? (some n)) (some n)
        (tailqNext (prefixSetDmetric c (insertAtPoint h E.getLast? n) E.getLast? (some n))
          n.ptr) := by
      unfold prefixInsert prefixInsertFuel
      rw [scanStart, hscan]
      rfl
    obtain ⟨d, hd⟩ := prefixSetDmetric_eq (c := c) (insertAtPoint h E.getLast? n) E.getLast? n
    rw [hdef, hd]
    cases tailqNext ((insertAtPoint h E.getLast? n).map (setMetric n.ptr d)) n.ptr with
    | none =>
      -- there is nothing behind the new path
      refine ⟨d, (n.ptr, d), ?_⟩
      rw [List.map_map]
      apply List.map_congr_left
      intro x _
      rw [Function.comp_apply]
      unfold setMetric
      split_ifs <;> rfl
    | some m =>
      obtain ⟨d', hd'⟩ := prefixSetDmetric_eq (c := c)
        ((insertAtPoint h E.getLast? n).map (setMetric n.ptr d)) (some n) m
      exact ⟨d, (m.ptr, d'), hd'⟩
  obtain ⟨d, d', hunf⟩ := hunf
  rw [hunf, prefixBest_setMetric, prefixBest_setMetric]
  have hbest : prefixBest flags (insertAtPoint h E.getLast? n) = prefixBest flags h := by
    unfold prefixBest
    congr 1
    cases E with
    | nil =>
      -- the new path is in front of a list without a best path
      have hnone : h.head?.filter prefixEligible = none := by
        rw [hsplit, List.nil_append]
        cases hI' : I.head? with
        | none => rfl
        | some x => rw [Option.filter_some, hI x hI']; rfl
      rw [hnone, List.getLast?_nil, insertAtPoint, List.head?_cons, Option.filter_some, hn]
      rfl
    -- the best path stays at the head
    | cons x E =>
      rw [List.getLast?_eq_some_getLast (List.cons_ne_nil x E), hsplit, insertAtPoint,
        List.cons_append, tailqInsertAfter]
      split_ifs <;> rfl
  rw [hbest]

/-- A change that is reported has a peer, and what it stores is the new path. -/
structure EnqueuesFor (new : Option Prefix) (ev : Evaluation) : Prop where
  peer : ∀ q ∈ ev.enqueue, q.peer.isSome
  new : ∀ q ∈ ev.enqueue, ∀ n ∈ q.newpath, n ∈ new

theorem evaluationReport_enqueues {newbest oldbest eligible : Option Prefix} {changed quiet : Bool}
    {peer : Option PeerId} {id : ℕ} (hnew : ∀ n ∈ eligible, n ∈ new)
    (hpeer : changed = true ∨ quiet = false → peer.isSome) :
    EnqueuesFor new (evaluationReport flags evalAll h newbest oldbest changed quiet peer eligible
      id) := by
  unfold evaluationReport
  by_cases hchanged : changed = true
  · rw [if_pos hchanged]
    exact ⟨fun q hq => Option.some.inj hq ▸ hpeer (Or.inl hchanged),
      fun q hq => Option.some.inj hq ▸ hnew⟩
  · rw [if_neg hchanged]
    by_cases hall : (evalAll && !quiet) = true
    · rw [if_pos hall]
      have hquiet : quiet = false := by simpa using (Bool.and_eq_true_iff.mp hall).2
      exact ⟨fun q hq => Option.some.inj hq ▸ hpeer (Or.inr hquiet),
        fun q hq => Option.some.inj hq ▸ hnew⟩
    · rw [if_neg hall]
      refine ⟨?_, ?_⟩ <;> rintro q ⟨⟩

/-- With `rde_eval_all` every change is reported that is not quiet. -/
theorem evaluationReport_enqueue {newbest oldbest eligible : Option Prefix} {changed quiet : Bool}
    {peer : Option PeerId} {id : ℕ} (hquiet : quiet = false) :
    ∃ q ∈ (evaluationReport flags true h newbest oldbest changed quiet peer eligible id).enqueue,
      q.newpath = eligible ∧ q.oldPathidTx = id := by
  subst hquiet
  unfold evaluationReport
  by_cases hchanged : changed = true
  · rw [if_pos hchanged]
    exact ⟨_, rfl, rfl, rfl⟩
  · rw [if_neg hchanged]
    exact ⟨_, rfl, rfl, rfl⟩

/-- `prefix_evaluate` where the decision process is on. -/
theorem prefixEvaluate_enqueues (hev : flags.noevaluate = false)
    (hrun : prefixEvaluate c flags evalAll h new old = some ev) :
    ev.h = insertNew c new (removeOld c old h) ∧ EnqueuesFor new ev ∧
      (evalAll = true → (∀ n ∈ new, ∀ o ∈ old, n.pathIdTx = o.pathIdTx) →
        ∀ o ∈ old, ∃ q ∈ ev.enqueue, q.pathIdTx = o.pathIdTx) := by
  have hsome : new.isSome ∨ old.isSome := by
    by_contra hnone
    rw [not_or, Option.not_isSome_iff_eq_none, Option.not_isSome_iff_eq_none] at hnone
    rw [hnone.1, hnone.2] at hrun
    cases hrun
  rw [prefixEvaluate_eq evalAll hev hsome rfl] at hrun
  obtain rfl := Option.some.inj hrun
  have hsub : ∀ n ∈ new.filter prefixEligible, n ∈ new := fun n hn =>
    (Option.filter_eq_some_iff.mp hn).1
  refine ⟨evaluationReport_h .., evaluationReport_enqueues hsub fun hq => ?_,
    fun hall hsame o ho => ?_⟩
  · cases hel : new.filter prefixEligible with
    | some n => rfl
    -- nothing new to announce, so the old path is reported
    | none =>
      have hrep : reportedOld new old = old := by
        rw [reportedOld, hel]
        rfl
      rw [hrep, hel] at hq
      rw [hrep]
      cases hold : old with
      | some o => rfl
      | none =>
        -- an ineligible path changes nothing
        rw [hold] at hq hsome
        obtain ⟨n, rfl⟩ := Option.isSome_iff_exists.mp (hsome.resolve_right (by simp))
        have hn : prefixEligible n = false := by simpa using Option.filter_eq_none_iff.mp hel
        have hsame : (prefixBest flags (prefixInsert c n none h)).map (·.ptr) =
            (prefixBest flags h).map (·.ptr) := prefixBest_insert_ineligible hn
        have hbest : samePrefix (prefixBest flags h)
            (prefixBest flags (insertNew c (some n) (removeOld c none h))) = true :=
          decide_eq_true hsame.symm
        rw [hbest] at hq
        rcases hq with hq | hq <;> cases hq
  · subst hall
    obtain rfl : old = some o := ho
    cases hel : new.filter prefixEligible with
    -- the new path is announced under its own path id
    | some n =>
      refine (evaluationReport_enqueue ?_).imp fun q hq => ⟨hq.1, ?_⟩
      · rw [Option.isNone_some, Bool.and_false]
      · rw [Enqueue.pathIdTx, hq.2.1]
        exact hsame n (hsub n hel) o rfl
    | none =>
      have hrep : reportedOld new (some o) = some o := by
        rw [reportedOld, hel]
        rfl
      refine (evaluationReport_enqueue ?_).imp fun q hq => ⟨hq.1, ?_⟩
      · rw [hrep]
        rfl
      · rw [Enqueue.pathIdTx, hq.2.1]
        dsimp only
        rw [hq.2.2, hrep]
        rfl

/-! ## One entry -/

/-- What holds of an entry. It is `armed` if changes of its list are reported and stored; otherwise
    no pending entry points to a path. -/
structure EntryPending (armed : Bool) (re : RibEntry) : Prop where
  keys : KeysNodup re.prefixH
  ids : (re.pq.map (·.1)).Nodup
  live : ∀ e ∈ re.pq, ∀ q ∈ e.2, ∃ p ∈ re.prefixH, p.ptr = q ∧ p.pathIdTx = e.1
  armed : ∀ e ∈ re.pq, e.2.isSome → armed = true
  idle : re.pqMode = none → re.pq = []

theorem EntryPending.empty (armed : Bool) : EntryPending armed {} where
  keys := ⟨List.nodup_nil, List.nodup_nil⟩
  ids := List.nodup_nil
  live := List.forall_mem_nil _
  armed := List.forall_mem_nil _
  idle _ := rfl

/-- A change of the list and its report: paths stay, or their ids are reported. -/
theorem EntryPending.evaluated (hok : EntryPending armed re) (hkeys : KeysNodup ev.h)
    (hall : armed = true → evalAll = true)
    (hkeep : ∀ p ∈ re.prefixH, (∃ p' ∈ ev.h, p'.ptr = p.ptr ∧ p'.pathIdTx = p.pathIdTx) ∨
      (armed = true → ∃ q ∈ ev.enqueue, q.pathIdTx = p.pathIdTx))
    (hnew : ∀ q ∈ ev.enqueue, ∀ n ∈ q.newpath, ∃ p ∈ ev.h, p.ptr = n.ptr ∧ p.pathIdTx = n.pathIdTx)
    (harmed : ∀ q ∈ ev.enqueue, evalAll = true → armed = true) :
    EntryPending armed (re.evaluated evalAll ev) := by
  -- what was pending still is, unless its path id is reported
  have hstay : ∀ e ∈ re.pq, (∀ q ∈ ev.enqueue, q.pathIdTx ≠ e.1) → ∀ q ∈ e.2,
      ∃ p ∈ ev.h, p.ptr = q ∧ p.pathIdTx = e.1 := by
    intro e he hother q hq
    obtain ⟨p, hp, hptr, hid⟩ := hok.live e he q hq
    rcases hkeep p hp with ⟨p', hp', hptr', hid'⟩ | hrep
    · exact ⟨p', hp', hptr'.trans hptr, hid'.trans hid⟩
    · obtain ⟨x, hx, hxid⟩ := hrep (hok.armed e he (Option.isSome_iff_exists.mpr ⟨q, hq⟩))
      exact absurd (hxid.trans hid) (hother x hx)
  cases hq : ev.enqueue with
  | none =>
    refine ⟨hkeys, ?_, ?_, ?_, ?_⟩
    all_goals simp only [RibEntry.evaluated, hq]
    · exact hok.ids
    · exact fun e he => hstay e he fun x hx => by rw [hq] at hx; cases hx
    · exact hok.armed
    · exact hok.idle
  | some q =>
    have hqmem : q ∈ ev.enqueue := hq
    refine ⟨hkeys, ?_, ?_, ?_, ?_⟩
    all_goals simp only [RibEntry.evaluated, hq]
    · split_ifs
      · exact nodup_pqAdd hok.ids
      · exact hok.ids
    · intro e he x hx
      split_ifs at he with hon
      · rcases (mem_pqAdd _ _ hok.ids e).mp he with rfl | ⟨he, hne⟩
        · obtain ⟨n, hn, rfl⟩ := Option.map_eq_some_iff.mp hx
          obtain ⟨p, hp, hptr, hid⟩ := hnew q hqmem n hn
          refine ⟨p, hp, hptr, hid.trans ?_⟩
          rw [Enqueue.pathIdTx, hn]
        · refine hstay e he (fun y hy => ?_) x hx
          obtain rfl : y = q := Option.some.inj (hy.symm.trans hq)
          exact fun heq => hne heq.symm
      · exact absurd (hall (hok.armed e he (Option.isSome_iff_exists.mpr ⟨x, hx⟩))) hon
    · intro e he hsome
      split_ifs at he with hon
      · exact harmed q hqmem hon
      · exact hok.armed e he hsome
    · intro hmode
      split_ifs at hmode with hdef
      rw [hmode] at hdef
      cases hdef

/-- `prefix_evaluate`: `armed` if `rde_eval_all` is on and the decision process is. -/
theorem EntryPending.evaluate (hok : EntryPending armed re) (ht : TakesPlace re.prefixH new old)
    (harm : armed = (evalAll && !flags.noevaluate))
    (hrun : prefixEvaluate c flags evalAll re.prefixH new old = some ev) :
    EntryPending armed (re.evaluated evalAll ev) ∧ (∀ q ∈ ev.enqueue, q.peer.isSome) ∧
      ∃ rest, Changed re.prefixH ev.h new old rest := by
  cases hev : flags.noevaluate with
  | false =>
    obtain ⟨hlist, hrep, hold⟩ := prefixEvaluate_enqueues hev hrun
    have hchange := changed_evaluate (c := c) hok.keys ht
    rw [← hlist] at hchange
    rw [hev, Bool.not_false, Bool.and_true] at harm
    refine ⟨hok.evaluated (hchange.keysNodup hok.keys ht) (fun ha => harm ▸ ha) (fun p hp => ?_)
      (fun q hq n hn => ?_) (fun _ _ ha => harm.trans ha), hrep.peer, _, hchange⟩
    · rcases List.mem_append.mp (hchange.before.mem_iff.mp (List.mem_map_of_mem hp)) with
        hmem | hmem
      · obtain ⟨o, ho, hident⟩ := Option.map_eq_some_iff.mp (Option.mem_toList.mp hmem)
        refine Or.inr fun ha => ?_
        obtain ⟨q, hq, hid⟩ := hold (harm ▸ ha) ht.same o ho
        exact ⟨q, hq, hid.trans (ident_id hident)⟩
      · obtain ⟨p', hp', hident⟩ :=
          List.mem_map.mp (hchange.after.mem_iff.mpr (List.mem_append_right _ hmem))
        exact Or.inl ⟨p', hp', ident_ptr hident, ident_id hident⟩
    · have hmem : n.ident ∈ idents ev.h := hchange.after.mem_iff.mpr <| List.mem_append_left _ <|
        Option.mem_toList.mpr (Option.mem_map_of_mem _ (hrep.new q hq n hn))
      obtain ⟨p, hp, hident⟩ := List.mem_map.mp hmem
      exact ⟨p, hp, ident_ptr hident, ident_id hident⟩
  | true =>
    rw [hev, Bool.not_true, Bool.and_false] at harm
    obtain ⟨rest, hchange, hquiet⟩ := prefixEvaluate_raw hok.keys ht hev hrun
    have hno : ∀ q, q ∉ ev.enqueue := fun q hq => by rw [hquiet] at hq; cases hq
    refine ⟨hok.evaluated (hchange.keysNodup hok.keys ht) (fun ha => ?_) (fun p _ => ?_)
      (fun q hq => absurd hq (hno q)) (fun q hq => absurd hq (hno q)), fun q hq =>
        absurd hq (hno q),
      rest, hchange⟩
    · exact absurd (harm.symm.trans ha) Bool.false_ne_true
    · exact Or.inr fun ha => absurd (harm.symm.trans ha) Bool.false_ne_true

/-- The same paths, in another order. -/
theorem EntryPending.perm (hok : EntryPending armed re)
    (hsame : (idents h).Perm (idents re.prefixH)) :
    EntryPending armed { re with prefixH := h } where
  keys := hok.keys.perm hsame
  ids := hok.ids
  live e he q hq := by
    obtain ⟨p, hp, hptr, hid⟩ := hok.live e he q hq
    obtain ⟨p', hp', hident⟩ := List.mem_map.mp (hsame.mem_iff.mpr (List.mem_map_of_mem hp))
    exact ⟨p', hp', (ident_ptr hident).trans hptr, (ident_id hident).trans hid⟩
  armed := hok.armed
  idle := hok.idle

/-- No report. -/
theorem EntryPending.quiet (hok : EntryPending armed re)
    (hsame : (idents h).Perm (idents re.prefixH))
    (kroute : Option (Option Prefix × Option Prefix)) :
    EntryPending armed (re.evaluated evalAll { h := h, kroute := kroute }) := hok.perm hsame

/-- `prefix_evaluate_nexthop` takes a path out and puts it back. -/
theorem EntryPending.evaluateNexthop (hok : EntryPending armed re) {p : Prefix}
    (hp : p ∈ re.prefixH) (state oldstate : NexthopState)
    (harm : armed = (evalAll && !flags.noevaluate))
    (hrun : prefixEvaluateNexthop c flags evalAll re.prefixH p state oldstate = ev) :
    EntryPending armed (re.evaluated evalAll ev) ∧ (∀ q ∈ ev.enqueue, q.peer.isSome) ∧
      (idents ev.h).Perm (idents re.prefixH) := by
  unfold prefixEvaluateNexthop at hrun
  by_cases hev : flags.noevaluate = true
  -- without a decision there is nothing to announce
  · rw [if_pos hev] at hrun
    subst hrun
    exact ⟨hok.quiet (List.Perm.refl _) none, fun _ hq => (by cases hq), List.Perm.refl _⟩
  · rw [if_neg hev] at hrun
    rw [Bool.not_eq_true] at hev
    rw [hev, Bool.not_false, Bool.and_true] at harm
    by_cases hsame : oldstate = state
    -- the nexthop has not changed its state
    · rw [if_pos hsame] at hrun
      split_ifs at hrun
      · subst hrun
        exact ⟨hok.quiet (List.Perm.refl _) _, fun _ hq => (by cases hq), List.Perm.refl _⟩
      · subst hrun
        exact ⟨hok.quiet (List.Perm.refl _) none, fun _ hq => (by cases hq), List.Perm.refl _⟩
    · rw [if_neg hsame] at hrun
      dsimp only at hrun
      generalize hn : ({ p with nhvalid := decide (state = .reach) } : Prefix) = new at hrun
      have hident : new.ident = p.ident := by rw [← hn]; rfl
      -- the path takes its own place again
      have ht : TakesPlace re.prefixH (some new) (some p) := by
        refine ⟨?_, ?_, ?_, ?_⟩
        · rintro o ⟨⟩
          exact List.mem_map_of_mem hp
        · rintro n ⟨⟩ o ⟨⟩
          exact ident_id hident
        · rintro n ⟨⟩ x _ hx
          exact ⟨p, rfl, hx.trans (ident_ptr hident)⟩
        · rintro n ⟨⟩ x _ hx
          exact ⟨p, rfl, hx.trans (ident_path hident)⟩
      have hchange := changed_evaluate (c := c) hok.keys ht
      generalize hh : insertNew c (some new) (removeOld c (some p) re.prefixH) = h' at hchange
      have hperm : (idents h').Perm (idents re.prefixH) := by
        refine hchange.after.trans (List.Perm.trans ?_ hchange.before.symm)
        rw [Option.map_some, Option.map_some, hident]
      have hh' : prefixInsert c new none (prefixRemove c p re.prefixH) = h' := hh
      rw [hh'] at hrun
      generalize (if (((some new).filter prefixEligible).isNone && prefixEligible p) = true
        then p.pathIdTx else 0) = id at hrun
      split_ifs at hrun
      · subst hrun
        exact ⟨hok.quiet hperm none, fun _ hq => (nomatch hq), hperm⟩
      · have hsub : ∀ n ∈ (some new).filter prefixEligible, n ∈ some new := fun n hn =>
          (Option.filter_eq_some_iff.mp hn).1
        have hrep : EnqueuesFor (some new) ev := by
          rw [← hrun]
          exact evaluationReport_enqueues hsub fun _ => rfl
        have hlist : ev.h = h' := by
          rw [← hrun, evaluationReport_h]
        rw [← hlist] at hperm hchange
        refine ⟨hok.evaluated (hchange.keysNodup hok.keys ht) (fun ha => harm ▸ ha)
          (fun x hx => Or.inl ?_) (fun q hq n hn => ?_) (fun _ _ ha => harm.trans ha), hrep.peer,
          hperm⟩
        · obtain ⟨x', hx', hident⟩ := List.mem_map.mp (hperm.mem_iff.mpr (List.mem_map_of_mem hx))
          exact ⟨x', hx', ident_ptr hident, ident_id hident⟩
        · obtain rfl := Option.some.inj (hrep.new q hq n hn)
          have hmem : new.ident ∈ idents re.prefixH := by
            rw [hident]
            exact List.mem_map_of_mem hp
          obtain ⟨x', hx', hident'⟩ := List.mem_map.mp (hperm.mem_iff.mpr hmem)
          exact ⟨x', hx', ident_ptr hident', ident_id hident'⟩

/-! ## The invariant -/

/-- Are changes of the entry reported and stored? The RIB of flowspec rules has no flags. -/
def armedAt (cfg : RdeConfig) (s : RdeState) (rib : ℕ) (pt : PtEntry) : Bool :=
  s.evalAll && (pt.aid.isFlowspec || !(cfg.ribFlags rib).noevaluate)

/-- An entry is in one queue as long as it has a mode. -/
structure QueueInv (s : RdeState) : Prop where
  queued : QueueOk s
  mode : ∀ q, ∀ e ∈ (s.peers q).ribPq, (s.entry e.1 e.2).pqMode ≠ none
  nodup : ∀ q, (s.peers q).ribPq.Nodup
  unique : ∀ q q' e, e ∈ (s.peers q).ribPq → e ∈ (s.peers q').ribPq → q = q'

/-- What holds between two events. -/
structure PendingInv (selfId : ℕ) (freed : ℕ → Bool) (cfg : RdeConfig) (s : RdeState) : Prop where
  entry : ∀ rib pt, EntryPending (armedAt cfg s rib pt) (s.entry rib pt)
  old : ∀ rib pt, ∀ p ∈ (s.entry rib pt).prefixH, p.ptr < s.nextPtr
  keys : ∀ rib pt, (s.entry rib pt).prefixH ≠ [] → pt ∈ s.keys
  flow : ∀ rib pt, pt.aid.isFlowspec = true → ∀ p ∈ (s.entry rib pt).prefixH,
    rib = ribLocStart ∧ p.peer = peerself ∧ p.pathId = 0 ∧ p.pathIdTx = selfId
  gone : ∀ rib pt, freed rib = true → (s.entry rib pt).prefixH = []
  queue : QueueInv s

variable {freed : ℕ → Bool}

/-! ## One change -/

/-- What a change leaves alone but the entry and the queues. -/
theorem applyEvaluation_frame (s : RdeState) (rib : ℕ) (pt : PtEntry) (ev : Evaluation) :
    (s.applyEvaluation rib pt ev).nextPtr = s.nextPtr ∧
      (s.applyEvaluation rib pt ev).keys = s.keys ∧
      (s.applyEvaluation rib pt ev).evalAll = s.evalAll := by
  rcases applyEvaluation_eq (s := s) rib pt ev with ⟨heq, -⟩ | ⟨q, heq⟩ <;> rw [heq] <;>
    exact ⟨rfl, rfl, rfl⟩

/-- The entry is changed, and no other one. -/
theorem applyEvaluation_entry (s : RdeState) (rib : ℕ) (pt : PtEntry) (ev : Evaluation) (r : ℕ)
    (k : PtEntry) : (s.applyEvaluation rib pt ev).entry r k =
      if r = rib ∧ k = pt then (s.entry rib pt).evaluated s.evalAll ev else s.entry r k := by
  rcases applyEvaluation_eq (s := s) rib pt ev with ⟨heq, -⟩ | ⟨q, heq⟩ <;> rw [heq] <;> rfl

/-- The entry is put into a queue if it was in none and the change is reported. -/
theorem applyEvaluation_ribPq (s : RdeState) (rib : ℕ) (pt : PtEntry) (ev : Evaluation)
    (hpeer : ∀ q ∈ ev.enqueue, q.peer.isSome) :
    (∀ q, ((s.applyEvaluation rib pt ev).peers q).ribPq = (s.peers q).ribPq) ∧
        (ev.enqueue = none ∨ (s.entry rib pt).pqMode ≠ none) ∨
      ∃ p, (s.entry rib pt).pqMode = none ∧ ev.enqueue ≠ none ∧
        ∀ q, ((s.applyEvaluation rib pt ev).peers q).ribPq =
          (s.peers q).ribPq ++ if q = p then [(rib, pt)] else [] := by
  unfold RdeState.applyEvaluation
  cases hq : ev.enqueue with
  | none => exact Or.inl ⟨fun _ => rfl, Or.inl rfl⟩
  | some q =>
    obtain ⟨p, hp⟩ := Option.isSome_iff_exists.mp (hpeer q hq)
    unfold RdeState.rdeEnqueueUpdates
    simp only [setEntry_entry, and_self, if_true, hp]
    cases hm : (s.entry rib pt).pqMode with
    | some m => exact Or.inl ⟨fun _ => rfl, Or.inr (Option.some_ne_none m)⟩
    | none =>
      refine Or.inr ⟨p, rfl, Option.some_ne_none q, fun x => ?_⟩
      exact enqueueEntry_ribPq p rib pt x

theorem evaluated_mode_ne_none : (re.evaluated evalAll ev).pqMode ≠ none ↔
    re.pqMode ≠ none ∨ ev.enqueue ≠ none := by
  cases hq : ev.enqueue with
  | none => simp [RibEntry.evaluated, hq]
  | some q =>
    refine ⟨fun _ => Or.inr (Option.some_ne_none q), fun _ => ?_⟩
    simp only [RibEntry.evaluated, hq]
    split_ifs with hdef
    · rw [hdef]
      exact Option.some_ne_none _
    · exact Option.some_ne_none _

/-- An evaluation queues the entry once for each peer and keeps the queues. -/
theorem QueueInv.applyEvaluation (hq : QueueInv s) (hpeer : ∀ q ∈ ev.enqueue, q.peer.isSome) :
    QueueInv (s.applyEvaluation rib pt ev) := by
  -- a mode stays
  have hmode : ∀ r k, (s.entry r k).pqMode ≠ none →
      ((s.applyEvaluation rib pt ev).entry r k).pqMode ≠ none := by
    intro r k hm
    rw [applyEvaluation_entry]
    split_ifs with heq
    · obtain ⟨rfl, rfl⟩ := heq
      exact evaluated_mode_ne_none.mpr (Or.inl hm)
    · exact hm
  have hmode' : ∀ r k, ((s.applyEvaluation rib pt ev).entry r k).pqMode ≠ none →
      (s.entry r k).pqMode ≠ none ∨ r = rib ∧ k = pt ∧ ev.enqueue ≠ none := by
    intro r k hm
    rw [applyEvaluation_entry] at hm
    split_ifs at hm with heq
    · obtain ⟨rfl, rfl⟩ := heq
      exact (evaluated_mode_ne_none.mp hm).imp_right fun h => ⟨rfl, rfl, h⟩
    · exact Or.inl hm
  rcases applyEvaluation_ribPq s rib pt ev hpeer with ⟨hpq, hquiet⟩ | ⟨p, hnone, hne, hpq⟩
  -- the entry was queued before, or there is nothing to queue
  · refine ⟨fun r k hm => ?_, fun q e he => ?_, fun q => hpq q ▸ hq.nodup q,
      fun q q' e he he' => ?_⟩
    · have hold : (s.entry r k).pqMode ≠ none := by
        rcases hmode' r k hm with hm | ⟨rfl, rfl, hne⟩
        · exact hm
        · exact hquiet.resolve_left hne
      obtain ⟨q, hmem⟩ := hq.queued r k hold
      exact ⟨q, (hpq q).symm ▸ hmem⟩
    · exact hmode e.1 e.2 (hq.mode q e (hpq q ▸ he))
    · exact hq.unique q q' e (hpq q ▸ he) (hpq q' ▸ he')
  · -- the entry is in no queue yet
    have hno : ∀ q, (rib, pt) ∉ (s.peers q).ribPq := fun q hmem => hq.mode q _ hmem hnone
    refine ⟨fun r k hm => ?_, fun q e he => ?_, fun q => ?_, fun q q' e he he' => ?_⟩
    · rcases hmode' r k hm with hm | ⟨rfl, rfl, -⟩
      · obtain ⟨q, hmem⟩ := hq.queued r k hm
        exact ⟨q, by rw [hpq]; exact List.mem_append_left _ hmem⟩
      · exact
          ⟨p, by rw [hpq, if_pos rfl]; exact List.mem_append_right _ (List.mem_singleton.mpr rfl)⟩
    · rw [hpq] at he
      rcases List.mem_append.mp he with he | he
      · exact hmode e.1 e.2 (hq.mode q e he)
      · split_ifs at he
        · obtain rfl := List.mem_singleton.mp he
          rw [applyEvaluation_entry, if_pos ⟨rfl, rfl⟩]
          exact evaluated_mode_ne_none.mpr (Or.inr hne)
        · cases he
    · rw [hpq]
      split_ifs
      · exact List.nodup_append.mpr ⟨hq.nodup q, List.nodup_singleton _, fun e he e' he' heq => by
          rw [List.mem_singleton.mp he'] at heq
          exact hno q (heq ▸ he)⟩
      · rw [List.append_nil]
        exact hq.nodup q
    · rw [hpq] at he he'
      by_cases heq : e = (rib, pt)
      · subst heq
        -- only one queue got the entry
        have honly : ∀ q, (rib, pt) ∈ (s.peers q).ribPq ++ (if q = p then [(rib, pt)] else []) →
            q = p := fun q hmem => by
          rcases List.mem_append.mp hmem with hmem | hmem
          · exact absurd hmem (hno q)
          · by_contra hqp
            rw [if_neg hqp] at hmem
            cases hmem
        rw [honly q he, honly q' he']
      · have hold : ∀ q, e ∈ (s.peers q).ribPq ++ (if q = p then [(rib, pt)] else []) →
            e ∈ (s.peers q).ribPq := fun q hmem => by
          rcases List.mem_append.mp hmem with hmem | hmem
          · exact hmem
          · split_ifs at hmem
            · exact absurd (List.mem_singleton.mp hmem) heq
            · cases hmem
        exact hq.unique q q' e (hold q he) (hold q' he')

/-- A change of an entry. -/
theorem PendingInv.applyEvaluation (hi : PendingInv selfId freed cfg s)
    (hok : EntryPending (armedAt cfg s rib pt) ((s.entry rib pt).evaluated s.evalAll ev))
    (hold : ∀ p ∈ ev.h, p.ptr < s.nextPtr) (hkey : ev.h ≠ [] → pt ∈ s.keys)
    (hflow : pt.aid.isFlowspec = true → ∀ p ∈ ev.h,
      rib = ribLocStart ∧ p.peer = peerself ∧ p.pathId = 0 ∧ p.pathIdTx = selfId)
    (hgone : freed rib = true → ev.h = []) (hpeer : ∀ q ∈ ev.enqueue, q.peer.isSome) :
    PendingInv selfId freed cfg (s.applyEvaluation rib pt ev) := by
  obtain ⟨hptr, hkeys, hall⟩ := applyEvaluation_frame s rib pt ev
  have harm : ∀ r k, armedAt cfg (s.applyEvaluation rib pt ev) r k = armedAt cfg s r k := by
    intro r k
    rw [armedAt, hall, armedAt]
  refine ⟨fun r k => ?_, fun r k => ?_, fun r k => ?_, fun r k => ?_, fun r k => ?_,
    hi.queue.applyEvaluation hpeer⟩
  all_goals rw [applyEvaluation_entry]
  · rw [harm]
    split_ifs with heq
    · obtain ⟨rfl, rfl⟩ := heq
      exact hok
    · exact hi.entry r k
  · rw [hptr]
    split_ifs with heq
    · exact hold
    · exact hi.old r k
  · rw [hkeys]
    split_ifs with heq
    · obtain ⟨rfl, rfl⟩ := heq
      exact hkey
    · exact hi.keys r k
  · split_ifs with heq
    · obtain ⟨rfl, rfl⟩ := heq
      exact hflow
    · exact hi.flow r k
  · split_ifs with heq
    · obtain ⟨rfl, rfl⟩ := heq
      exact hgone
    · exact hi.gone r k

/-! ## Changes of the RIBs -/

theorem evaluate_frame (cfg : RdeConfig) (s : RdeState) (rib : ℕ) (pt : PtEntry)
    (new old : Option Prefix) : (s.evaluate cfg rib pt new old).nextPtr = s.nextPtr ∧
      (s.evaluate cfg rib pt new old).keys = s.keys := by
  unfold RdeState.evaluate
  split
  · exact ⟨(applyEvaluation_frame ..).1, (applyEvaluation_frame ..).2.1⟩
  · exact ⟨rfl, rfl⟩

/-- `prefix_evaluate` -/
theorem PendingInv.evaluate (hi : PendingInv selfId freed cfg s) (hnf : pt.aid.isFlowspec = false)
    (ht : TakesPlace (s.entry rib pt).prefixH new old) (hnew : ∀ n ∈ new, n.ptr < s.nextPtr)
    (hkey : new.isSome → pt ∈ s.keys ∧ freed rib = false) :
    PendingInv selfId freed cfg (s.evaluate cfg rib pt new old) ∧ ∃ rest,
      Changed (s.entry rib pt).prefixH ((s.evaluate cfg rib pt new old).entry rib pt).prefixH new
        old rest := by
  unfold RdeState.evaluate
  cases hrun : prefixEvaluate (s.decideCtx cfg) (cfg.ribFlags rib) s.evalAll
      (s.entry rib pt).prefixH new old with
  | none =>
    have hnone : new = none ∧ old = none := by
      unfold prefixEvaluate at hrun
      split_ifs at hrun with hnone
      rw [Bool.and_eq_true, Option.isNone_iff_eq_none, Option.isNone_iff_eq_none] at hnone
      exact hnone.symm
    rw [hnone.1, hnone.2]
    exact ⟨hi, idents (s.entry rib pt).prefixH, List.Perm.refl _, List.Perm.refl _⟩
  | some ev =>
    have harm : armedAt cfg s rib pt = (s.evalAll && !(cfg.ribFlags rib).noevaluate) := by
      rw [armedAt, hnf, Bool.false_or]
    obtain ⟨hok, hpeer, rest, hchange⟩ := (hi.entry rib pt).evaluate ht harm hrun
    have hlist : ((s.applyEvaluation rib pt ev).entry rib pt).prefixH = ev.h := by
      rw [applyEvaluation_entry, if_pos ⟨rfl, rfl⟩]
      rfl
    dsimp only
    rw [hlist]
    refine ⟨hi.applyEvaluation hok (fun p hp => ?_) (fun hne => ?_)
      (fun hf => absurd (hnf.symm.trans hf) Bool.false_ne_true) (fun hfree => ?_) hpeer, rest,
      hchange⟩
    · rcases List.mem_append.mp (hchange.after.mem_iff.mp (List.mem_map_of_mem hp)) with hmem | hmem
      · obtain ⟨n, hn, hident⟩ := Option.map_eq_some_iff.mp (Option.mem_toList.mp hmem)
        rw [← ident_ptr hident]
        exact hnew n hn
      · obtain ⟨x, hx, hident⟩ :=
          List.mem_map.mp (hchange.before.mem_iff.mpr (List.mem_append_right _ hmem))
        rw [← ident_ptr hident]
        exact hi.old rib pt x hx
    · cases hn : new with
      | some n => exact (hkey (by rw [hn]; rfl)).1
      | none => exact hi.keys rib pt (hchange.ne_nil hn hne)
    · cases hn : new with
      | some n => exact absurd ((hkey (by rw [hn]; rfl)).2.symm.trans hfree) Bool.false_ne_true
      | none =>
        by_contra hne
        exact hchange.ne_nil hn hne (hi.gone rib pt hfree)

/-- `prefix_destroy` of a listed path. -/
theorem PendingInv.prefixDestroy (hi : PendingInv selfId freed cfg s)
    (hnf : pt.aid.isFlowspec = false)
    {p : Prefix} (hp : p.ident ∈ idents (s.entry rib pt).prefixH) :
    PendingInv selfId freed cfg (s.prefixDestroy cfg rib pt p) ∧ ∃ rest,
      Changed (s.entry rib pt).prefixH ((s.prefixDestroy cfg rib pt p).entry rib pt).prefixH none
        (some p) rest := by
  refine hi.evaluate hnf ⟨?_, ?_, ?_, ?_⟩ (fun _ hn => nomatch hn) (fun hn => nomatch hn)
  · rintro o ⟨⟩
    exact hp
  all_goals rintro n ⟨⟩

/-- In a RIB without decision process nothing points to the path that is removed, listed or not. -/
theorem PendingInv.prefixDestroy_raw (hi : PendingInv selfId freed cfg s)
    (hnf : pt.aid.isFlowspec = false) (hev : (cfg.ribFlags rib).noevaluate = true) (p : Prefix) :
    PendingInv selfId freed cfg (s.prefixDestroy cfg rib pt p) := by
  set ev : Evaluation := { h := tailqRemove (s.entry rib pt).prefixH p.ptr } with hevdef
  have heq : s.prefixDestroy cfg rib pt p = s.applyEvaluation rib pt ev := by
    unfold RdeState.prefixDestroy RdeState.evaluate prefixEvaluate
    rw [if_neg (by simp), if_pos hev]
  have harm : armedAt cfg s rib pt = false := by
    rw [armedAt, hnf, hev]
    exact Bool.and_false _
  have hsub : ev.h.Sublist (s.entry rib pt).prefixH := List.filter_sublist
  have hok := hi.entry rib pt
  rw [heq]
  refine hi.applyEvaluation (hok.evaluated ?_ (fun ha => ?_) (fun _ _ => Or.inr fun ha => ?_)
    (fun _ hq => nomatch hq) (fun _ hq => nomatch hq))
      (fun x hx => hi.old rib pt x (hsub.subset hx))
    (fun hne => hi.keys rib pt fun hnil => hne (List.eq_nil_of_sublist_nil (hnil ▸ hsub)))
    (fun hf => absurd (hnf.symm.trans hf) Bool.false_ne_true)
    (fun hfree => List.eq_nil_of_sublist_nil (hi.gone rib pt hfree ▸ hsub)) (fun _ hq => nomatch hq)
  · exact ⟨hok.keys.ptrs.sublist (hsub.map _), hok.keys.paths.sublist (hsub.map _)⟩
  · exact absurd (harm.symm.trans ha) Bool.false_ne_true
  · exact absurd (harm.symm.trans ha) Bool.false_ne_true

/-- `prefix_withdraw` -/
theorem PendingInv.prefixWithdraw (hi : PendingInv selfId freed cfg s)
    (hnf : pt.aid.isFlowspec = false)
    (rib : ℕ) (peer : PeerId) (pathId : ℕ) :
    PendingInv selfId freed cfg (s.prefixWithdraw cfg rib peer pathId pt) := by
  unfold RdeState.prefixWithdraw
  cases hget : s.prefixGet rib peer pathId pt with
  | none => exact hi
  | some p => exact (hi.prefixDestroy hnf (List.mem_map_of_mem (prefixGet_some hget).1)).1

/-- A new address is taken. -/
theorem PendingInv.nextPtr (hi : PendingInv selfId freed cfg s) :
    PendingInv selfId freed cfg { s with nextPtr := s.nextPtr + 1 } :=
  { hi with
    old := fun rib pt p hp => Nat.lt_succ_of_lt (hi.old rib pt p hp)
    queue := { hi.queue with } }

/-- `pt_add` -/
theorem PendingInv.addKey (hi : PendingInv selfId freed cfg s) (pt : PtEntry) :
    PendingInv selfId freed cfg (s.addKey pt) ∧ pt ∈ (s.addKey pt).keys ∧
      (s.addKey pt).entry = s.entry ∧ (s.addKey pt).nextPtr = s.nextPtr := by
  unfold RdeState.addKey
  split_ifs with hmem
  · exact ⟨hi, hmem, rfl, rfl⟩
  · refine ⟨{ hi with
      keys := fun rib k hne => mem_insertKey.mpr (Or.inr (hi.keys rib k hne))
      queue := { hi.queue with } }, mem_insertKey.mpr (Or.inl rfl), rfl, rfl⟩

variable {a : PathArgs}

/-- `prefix_add` -/
theorem PendingInv.prefixAdd (hi : PendingInv selfId freed cfg s)
    (hnf : a.pt.aid.isFlowspec = false)
    (hrib : freed a.rib = false) (hget : s.prefixGet a.rib a.peer a.pathId a.pt = none) :
    PendingInv selfId freed cfg (s.prefixAdd cfg a) := by
  obtain ⟨hadd, hmem, hentry, hptr⟩ := hi.nextPtr.addKey a.pt
  refine (hadd.evaluate hnf ⟨?_, ?_, ?_, ?_⟩ (fun n hn => ?_) fun _ => ⟨hmem, hrib⟩).1
  · rintro o ⟨⟩
  · rintro n ⟨⟩ o ⟨⟩
  · rintro n ⟨⟩ x hx heq
    rw [hentry] at hx
    exact absurd heq (hi.old a.rib a.pt x hx).ne
  · rintro n ⟨⟩ x hx heq
    rw [hentry] at hx
    have hnone := List.find?_eq_none.mp hget x hx
    rw [decide_eq_true_eq] at hnone
    exact absurd (Prod.mk.inj heq) hnone
  · obtain rfl := Option.some.inj hn
    rw [hptr]
    exact Nat.lt_succ_self _

/-- `prefix_move` -/
theorem PendingInv.prefixMove (hi : PendingInv selfId freed cfg s)
    (hnf : a.pt.aid.isFlowspec = false)
    (hrib : freed a.rib = false) {p : Prefix}
    (hget : s.prefixGet a.rib a.peer a.pathId a.pt = some p)
    (hid : a.pathIdTx = p.pathIdTx) : PendingInv selfId freed cfg (s.prefixMove cfg a p) := by
  obtain ⟨hp, hpeer, hpath⟩ := prefixGet_some hget
  refine (hi.nextPtr.evaluate hnf ⟨?_, ?_, ?_, ?_⟩ (fun n hn => ?_) fun _ => ?_).1
  · rintro o ⟨⟩
    exact List.mem_map_of_mem hp
  · rintro n ⟨⟩ o ⟨⟩
    exact hid
  · rintro n ⟨⟩ x hx heq
    exact absurd heq (hi.old a.rib a.pt x hx).ne
  · rintro n ⟨⟩ x _ heq
    refine ⟨p, rfl, heq.trans ?_⟩
    rw [hpeer, hpath]
    rfl
  · obtain rfl := Option.some.inj hn
    exact Nat.lt_succ_self _
  · exact ⟨hi.keys a.rib a.pt (List.ne_nil_of_mem hp), hrib⟩

/-- Paths change, but for what pending entries and lookups know about them. -/
theorem PendingInv.sameIdents (hi : PendingInv selfId freed cfg s) (hnf : pt.aid.isFlowspec = false)
    (hsame : idents h = idents (s.entry rib pt).prefixH) :
    PendingInv selfId freed cfg (s.setEntry rib pt { s.entry rib pt with prefixH := h }) := by
  have hperm : (idents h).Perm (idents (s.entry rib pt).prefixH) := hsame ▸ List.Perm.refl _
  show PendingInv selfId freed cfg (s.applyEvaluation rib pt { h := h })
  refine hi.applyEvaluation ((hi.entry rib pt).quiet hperm none) (fun p hp => ?_) (fun hne => ?_)
    (fun hf => absurd (hnf.symm.trans hf) Bool.false_ne_true) (fun hfree => ?_)
    fun _ hq => nomatch hq
  · obtain ⟨x, hx, hident⟩ := List.mem_map.mp (hperm.mem_iff.mp (List.mem_map_of_mem hp))
    rw [← ident_ptr hident]
    exact hi.old rib pt x hx
  · obtain ⟨p, hp⟩ := List.exists_mem_of_ne_nil _ hne
    obtain ⟨x, hx, -⟩ := List.mem_map.mp (hperm.mem_iff.mp (List.mem_map_of_mem hp))
    exact hi.keys rib pt (List.ne_nil_of_mem hx)
  · rw [hi.gone rib pt hfree] at hsame
    exact List.map_eq_nil_iff.mp hsame

theorem idents_map {f : Prefix → Prefix} (hf : ∀ p, (f p).ident = p.ident) (h : List Prefix) :
    idents (h.map f) = idents h := by
  rw [idents, List.map_map]
  exact List.map_congr_left fun p _ => hf p

theorem PendingInv.touch (hi : PendingInv selfId freed cfg s)
    (hnf : pt.aid.isFlowspec = false) (rib : ℕ)
    (q : Ptr) (now : ℕ) : PendingInv selfId freed cfg (s.touch rib pt q now) :=
  hi.sameIdents hnf <| idents_map (fun p => by split_ifs <;> rfl) _

/-- A path is taken out and put back with another filtered flag or validation state. -/
theorem PendingInv.reinsert (hi : PendingInv selfId freed cfg s) (hnf : pt.aid.isFlowspec = false)
    (hrib : freed rib = false) {p p' : Prefix} (hp : p.ident ∈ idents (s.entry rib pt).prefixH)
    (hident : p'.ident = p.ident) :
    PendingInv selfId freed cfg
      ((s.evaluate cfg rib pt none (some p)).evaluate cfg rib pt (some p') none) := by
  obtain ⟨hrem, rest, hchange⟩ := hi.prefixDestroy hnf hp
  have hk := (hi.entry rib pt).keys
  -- no other path has its keys
  have hother : ∀ x ∈ ((s.prefixDestroy cfg rib pt p).entry rib pt).prefixH,
      x.ptr ≠ p.ptr ∧ (x.peer, x.pathId) ≠ (p.peer, p.pathId) := by
    intro x hx
    have hmem := hchange.after.mem_iff.mp (List.mem_map_of_mem hx)
    have hptrs := (hchange.before.map (·.1)).nodup_iff.mp (ptrs_idents _ ▸ hk.ptrs)
    have hpaths := (hchange.before.map (·.2.2)).nodup_iff.mp (paths_idents _ ▸ hk.paths)
    rw [Option.map_some, Option.toList_some, List.singleton_append, List.map_cons,
      List.nodup_cons] at hptrs hpaths
    exact ⟨fun heq => hptrs.1 (List.mem_map.mpr ⟨x.ident, hmem, heq⟩),
      fun heq => hpaths.1 (List.mem_map.mpr ⟨x.ident, hmem, heq⟩)⟩
  obtain ⟨x, hx, hxp⟩ := List.mem_map.mp hp
  refine (hrem.evaluate hnf ⟨?_, ?_, ?_, ?_⟩ (fun n hn => ?_) fun _ => ?_).1
  · rintro o ⟨⟩
  · rintro n ⟨⟩ o ⟨⟩
  · rintro n ⟨⟩ y hy heq
    exact absurd (heq.trans (ident_ptr hident)) (hother y hy).1
  · rintro n ⟨⟩ y hy heq
    exact absurd (heq.trans (ident_path hident)) (hother y hy).2
  · obtain rfl := Option.some.inj hn
    rw [RdeState.prefixDestroy, (evaluate_frame ..).1, ident_ptr hident, ← ident_ptr hxp]
    exact hi.old rib pt x hx
  · rw [RdeState.prefixDestroy, (evaluate_frame ..).2]
    exact ⟨hi.keys rib pt (List.ne_nil_of_mem hx), hrib⟩

/-- `prefix_update` -/
theorem PendingInv.prefixUpdate (hi : PendingInv selfId freed cfg s)
    (hnf : a.pt.aid.isFlowspec = false) (hrib : freed a.rib = false)
    (hrun : s.prefixUpdate cfg a = .ok s') : PendingInv selfId freed cfg s' := by
  unfold RdeState.prefixUpdate at hrun
  cases hget : s.prefixGet a.rib a.peer a.pathId a.pt with
  | none =>
    rw [hget] at hrun
    obtain rfl := Except.ok.inj hrun
    exact hi.prefixAdd hnf hrib hget
  | some p =>
    rw [hget] at hrun
    have hp := (prefixGet_some hget).1
    dsimp only at hrun
    split_ifs at hrun with hid hsame hflag
    · obtain rfl := Except.ok.inj hrun
      exact hi.touch hnf a.rib p.ptr a.now
    · obtain rfl := Except.ok.inj hrun
      refine (hi.touch hnf a.rib p.ptr a.now).reinsert hnf hrib ?_ rfl
      show p.ident ∈ idents ((s.touch a.rib a.pt p.ptr a.now).entry a.rib a.pt).prefixH
      rw [RdeState.touch, setEntry_entry, if_pos ⟨rfl, rfl⟩,
        idents_map fun x => by split_ifs <;> rfl]
      exact List.mem_map_of_mem hp
    · obtain rfl := Except.ok.inj hrun
      exact hi.prefixMove hnf hrib hget (not_not.mp hid)

/-- `prefix_evaluate_nexthop` -/
theorem PendingInv.evaluateNexthop (hi : PendingInv selfId freed cfg s)
    (hnf : pt.aid.isFlowspec = false) (rib : ℕ) (q : Ptr) (state oldstate : NexthopState) :
    PendingInv selfId freed cfg (s.evaluateNexthop cfg rib pt q state oldstate) := by
  unfold RdeState.evaluateNexthop
  cases hfind : (s.entry rib pt).prefixH.find? (fun p => p.ptr = q) with
  | none => exact hi
  | some p =>
    have harm : armedAt cfg s rib pt = (s.evalAll && !(cfg.ribFlags rib).noevaluate) := by
      rw [armedAt, hnf, Bool.false_or]
    obtain ⟨hok, hpeer, hperm⟩ := (hi.entry rib pt).evaluateNexthop (c := s.decideCtx cfg)
      (List.mem_of_find?_eq_some hfind) state oldstate harm rfl
    refine hi.applyEvaluation hok (fun p hp => ?_) (fun hne => ?_)
      (fun hf => absurd (hnf.symm.trans hf) Bool.false_ne_true) (fun hfree => ?_) hpeer
    · obtain ⟨x, hx, hident⟩ := List.mem_map.mp (hperm.mem_iff.mp (List.mem_map_of_mem hp))
      rw [← ident_ptr hident]
      exact hi.old rib pt x hx
    · exact hi.keys rib pt (List.ne_nil_of_mem (List.mem_of_find?_eq_some hfind))
    · rw [hi.gone rib pt hfree] at hfind
      cases hfind

/-- A loop of changes. -/
theorem PendingInv.foldl {α : Type} {f : RdeState → α → RdeState} {l : List α}
    (hf : ∀ s, PendingInv selfId freed cfg s → ∀ x ∈ l, PendingInv selfId freed cfg (f s x))
    (hi : PendingInv selfId freed cfg s) : PendingInv selfId freed cfg (l.foldl f s) := by
  induction l generalizing s with
  | nil => exact hi
  | cons x l ih =>
    exact ih (fun s hs y hy => hf s hs y (List.mem_cons_of_mem _ hy)) (hf s hi x List.mem_cons_self)

/-- `peer_flush_upcall` for an entry of the Adj-RIB-In, which holds no flowspec rules. -/
theorem PendingInv.flushEntry (hi : PendingInv selfId freed cfg s) (peer : PeerId)
    (staletime : Option ℕ)
    (pt : PtEntry) : PendingInv selfId freed cfg (s.flushEntry cfg peer staletime pt) := by
  unfold RdeState.flushEntry
  cases hnf : pt.aid.isFlowspec with
  | true =>
    have hnil : (s.entry ribAdjIn pt).prefixH = [] := by
      rw [List.eq_nil_iff_forall_not_mem]
      intro p hp
      exact absurd (hi.flow ribAdjIn pt hnf p hp).1 (by decide)
    rw [hnil]
    exact hi
  | false =>
    refine PendingInv.foldl (fun s hs p _ => ?_) hi
    exact (PendingInv.foldl
      (fun s hs i _ => hs.prefixWithdraw hnf i peer p.pathId) hs).prefixDestroy_raw
      hnf cfg.adjIn p

end Bgpd.Rde
