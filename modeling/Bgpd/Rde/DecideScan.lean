import Bgpd.Rde.Decide

/-!
# The Scans of the Decision Process as Gap Searches

`prefix_insert` walks over the queue with a pointer to the insertion point and takes
elements out on the way. Seen from outside it looks for a gap: it splits what it leaves in
the queue into the part before and the part behind the new path. `gapScan` is that search
on plain lists, and `insertScan_gap` says that the pointer program performs it.

All statements are up to `dmetric`, which no comparison reads; `coreList` forgets it.

## Main results

- `insertLevel_core`: one level of `prefix_insert` is one gap search
- `prefixInsertFuel_rule`: what every level keeps holds at the end of the recursion
- `prefixInsert_perm`, `prefixRemove_perm`: no path is lost or duplicated
- `prefixInsert_eligibleFirst`, `prefixRemove_eligibleFirst`: eligible paths stand first
-/

namespace Bgpd.Rde

variable (c : DecideCtx)

/-! ## Lists up to `dmetric` -/

/-- The queue without the `dmetric` values. -/
def coreList (h : List Prefix) : List Prefix := h.map Prefix.core

@[simp] theorem coreList_nil : coreList [] = [] := rfl

@[simp] theorem coreList_cons (p : Prefix) (h : List Prefix) :
    coreList (p :: h) = p.core :: coreList h := rfl

@[simp] theorem coreList_append (h k : List Prefix) :
    coreList (h ++ k) = coreList h ++ coreList k := List.map_append

@[simp] theorem coreList_ptr (h : List Prefix) :
    (coreList h).map (·.ptr) = h.map (·.ptr) := by
  simp [coreList, Function.comp_def]

@[simp] theorem prefixEligible_core (p : Prefix) : prefixEligible p.core = prefixEligible p := rfl

/-- No comparison reads `dmetric`. -/
theorem prefixCmp_core (p q : Prefix) :
    prefixCmp c (some p.core) (some q.core) = prefixCmp c (some p) (some q) := rfl

@[simp] theorem coreList_prefixSetDmetric (h : List Prefix) (pp np : Option Prefix) :
    coreList (prefixSetDmetric c h pp np) = coreList h := by
  cases np with
  | none => rfl
  | some n =>
    simp only [prefixSetDmetric, coreList, List.map_map]
    refine List.map_congr_left fun x _ => ?_
    simp only [Function.comp_apply]
    split <;> rfl

theorem coreList_tailqRemove (h : List Prefix) (q : Ptr) :
    coreList (tailqRemove h q) = tailqRemove (coreList h) q := by
  simp only [coreList, tailqRemove, List.filter_map]
  rfl

theorem coreList_tailqInsertAfter (h : List Prefix) (q : Ptr) (new : Prefix) :
    coreList (tailqInsertAfter h q new) = tailqInsertAfter (coreList h) q new.core := by
  induction h with
  | nil => rfl
  | cons x t ih =>
    simp only [tailqInsertAfter, coreList_cons, Prefix.core_ptr]
    by_cases hx : x.ptr = q
    · simp [hx]
    · simp [hx, ih]

theorem tailqRemove_append {l k : List Prefix} {q : Ptr} :
    tailqRemove (l ++ k) q = tailqRemove l q ++ tailqRemove k q := List.filter_append ..

theorem tailqRemove_of_not_mem {l : List Prefix} {q : Ptr} (h : q ∉ l.map (·.ptr)) :
    tailqRemove l q = l := by
  refine List.filter_eq_self.mpr fun x hx => ?_
  have : x.ptr ≠ q := fun hq => h (List.mem_map.mpr ⟨x, hx, hq⟩)
  simpa using this

/-- Removing the object between two parts of the queue. -/
theorem tailqRemove_middle {l k : List Prefix} {x : Prefix}
    (h : ((l ++ x :: k).map (·.ptr)).Nodup) : tailqRemove (l ++ x :: k) x.ptr = l ++ k := by
  rw [List.map_append, List.map_cons, List.nodup_middle, List.nodup_cons, List.mem_append,
    not_or] at h
  have hx : tailqRemove (x :: k) x.ptr = tailqRemove k x.ptr :=
    List.filter_cons_of_neg (by simp)
  rw [tailqRemove_append, tailqRemove_of_not_mem h.1.1, hx, tailqRemove_of_not_mem h.1.2]

/-- Inserting behind the last object of the first part. -/
theorem tailqInsertAfter_middle {l k : List Prefix} {x new : Prefix}
    (h : ((l ++ x :: k).map (·.ptr)).Nodup) :
    tailqInsertAfter (l ++ x :: k) x.ptr new = l ++ x :: new :: k := by
  induction l with
  | nil => simp [tailqInsertAfter]
  | cons y l ih =>
    rw [List.cons_append, List.map_cons, List.nodup_cons] at h
    have hne : y.ptr ≠ x.ptr := fun he => h.1 (by simp [he])
    rw [List.cons_append, tailqInsertAfter, if_neg hne, ih h.2]
    rfl

/-! ## The gap search -/

/-- The state of the search: the part of the queue before the gap, the part behind it, the
    paths taken out, and whether the gap is locked. -/
structure Gap where
  before : List Prefix
  behind : List Prefix := []
  redo : List Prefix := []
  selected : Bool := false

/-- The loop of `prefix_insert` as a search for the gap. -/
def gapScan (new : Prefix) : List Prefix → Gap → Gap
  | [], g => g
  | xp :: np, g =>
    let (rv, testall) := prefixCmp c (some new) (some xp)
    if rv > 0 then
      if testall = 2 then gapScan new np { g with redo := g.redo ++ [xp] }
      else if testall = 0 then { g with behind := g.behind ++ xp :: np }
      else gapScan new np
        { g with behind := g.behind ++ [xp], selected := testall = 1 || g.selected }
    else if testall = 2 ∨ g.selected = false then
      gapScan new np
        { g with before := g.before ++ g.behind ++ [xp], behind := [], selected := false }
    else gapScan new np { g with behind := g.behind ++ [xp] }

/-- The gap state `g` describes the variables of the scan. -/
structure GapSim (g : Gap) (todo : List Prefix) (st : InsertScan) : Prop where
  queue : coreList st.h = g.before ++ g.behind ++ coreList todo
  insertp : st.insertp.map (·.ptr) = g.before.getLast?.map (·.ptr)
  selected : st.selected = g.selected
  redo : coreList st.redo = g.redo
  nodup : ((g.before ++ g.behind ++ coreList todo).map (·.ptr)).Nodup

variable {c}

theorem GapSim.fixup {g : Gap} {todo : List Prefix} {st : InsertScan} (xp : Prefix)
    (h : GapSim g todo st) : GapSim g todo (st.fixup c xp) := by
  unfold InsertScan.fixup
  split
  · exact ⟨by simpa using h.queue, h.insertp, h.selected, h.redo, h.nodup⟩
  · exact h

/-- The element at hand stays in the queue, behind the gap. -/
theorem GapSim.keep {g : Gap} {xp : Prefix} {np : List Prefix} {st : InsertScan}
    (h : GapSim g (xp :: np) st) (sel : Bool) :
    GapSim { g with behind := g.behind ++ [xp.core], selected := sel } np
      { st with selected := sel } :=
  ⟨by simpa using h.queue, h.insertp, rfl, h.redo, by simpa using h.nodup⟩

/-- The gap moves behind the element at hand. -/
theorem GapSim.advance {g : Gap} {xp : Prefix} {np : List Prefix} {st : InsertScan}
    (h : GapSim g (xp :: np) st) :
    GapSim { g with before := g.before ++ g.behind ++ [xp.core], behind := [], selected := false }
      np { st with selected := false, insertp := some xp } :=
  ⟨by simpa using h.queue, by simp, rfl, h.redo, by simpa using h.nodup⟩

/-- The element at hand is taken out. -/
theorem GapSim.takeOut {g : Gap} {xp : Prefix} {np : List Prefix} {st : InsertScan}
    (h : GapSim g (xp :: np) st) :
    GapSim { g with redo := g.redo ++ [xp.core] } np
      { st with h := tailqRemove st.h xp.ptr, redo := st.redo ++ [xp], removed := true } := by
  have hnd := h.nodup
  rw [coreList_cons] at hnd
  refine ⟨?_, h.insertp, h.selected, by simp [h.redo], ?_⟩
  · rw [coreList_tailqRemove, h.queue, coreList_cons, ← Prefix.core_ptr xp,
      tailqRemove_middle hnd]
  · rw [List.map_append, List.map_cons, List.nodup_middle, List.nodup_cons] at hnd
    simpa using hnd.2

/-- **Simulation**: the scan of `prefix_insert` is the gap search. -/
theorem insertScan_gap (new : Prefix) {todo : List Prefix} {g : Gap} {st : InsertScan}
    (h : GapSim g todo st) :
    GapSim (gapScan c new.core (coreList todo) g) [] (insertScan c new todo st) := by
  induction todo generalizing g st with
  | nil => exact h
  | cons xp np ih =>
    rw [coreList_cons, gapScan, insertScan, prefixCmp_core]
    generalize prefixCmp c (some new) (some xp) = r
    obtain ⟨rv, testall⟩ := r
    have hsel := h.selected
    dsimp only
    by_cases hrv : rv > 0
    · simp only [hrv, if_true]
      by_cases h2 : testall = 2
      -- the MED check decides against `xp`: it is taken out
      · simp only [h2, if_true]
        exact ih h.takeOut
      by_cases h0 : testall = 0
      · -- new is better before the MED check: the scan ends here
        simp only [h0, OfNat.zero_ne_ofNat, zero_ne_one, if_false, if_true]
        have hf := h.fixup (c := c) xp
        exact ⟨by simpa using hf.queue, hf.insertp, hf.selected, hf.redo, by simpa using hf.nodup⟩
      have hst : (if testall = 1 then { st with selected := true } else st) =
          { st with selected := testall = 1 || g.selected } := by
        by_cases h1 : testall = 1 <;> simp [h1, ← hsel]
      simp only [h2, h0, if_false, hst]
      exact ih ((h.keep _).fixup xp)
    · simp only [hrv, if_false]
      by_cases hadv : testall = 2 ∨ g.selected = false
      -- the place moves behind `xp`
      · have hst : (if testall = 2 then { st with selected := false } else st) =
            { st with selected := false } := by
          rcases hadv with h2 | hs
          · simp [h2]
          · simp [← hs, ← hsel]
        simp only [hadv, if_true, hst, Bool.not_false]
        exact ih (h.advance.fixup xp)
      -- the place is found and stays
      · have h2 : testall ≠ 2 := fun he => hadv (Or.inl he)
        have hs : g.selected = true := by simpa using fun he => hadv (Or.inr he)
        have hk : GapSim { g with behind := g.behind ++ [xp.core], selected := true } np st :=
          ⟨by simpa using h.queue, h.insertp, hsel.trans hs, h.redo, by simpa using h.nodup⟩
        simp only [h2, if_false, hsel, hs, Bool.not_true, Bool.false_eq_true]
        exact ih (hk.fixup xp)

/-! ## The comparison at the MED check -/

/-- Steps 2 to 4 as one key: smaller is better. -/
def prefixLevel (p : Prefix) : List ℤ :=
  [-(p.asp.lpref : ℤ), aspathCount p.asp.aspath, p.asp.origin]

/-- Step 5 and the steps behind it. -/
def prefixCmpMed (c : DecideCtx) (p q : Prefix) : ℤ × ℕ :=
  let medAlways := c.flags.medAlways
  let sameAs := aspathNeighbor c.localAs p.asp.aspath = aspathNeighbor c.localAs q.asp.aspath
  if (medAlways ∨ sameAs) ∧ p.asp.med < q.asp.med then (2, if medAlways then 0 else 2)
  else if (medAlways ∨ sameAs) ∧ q.asp.med < p.asp.med then (-2, if medAlways then 0 else 2)
  else (prefixCmpTail c p q, if medAlways then 0 else 1)

private theorem levelSteps {l₁ l₂ a₁ a₂ o₁ o₂ : ℕ} (r : ℤ × ℕ) :
    (if l₂ < l₁ then (2, 0) else if l₁ < l₂ then (-2, 0)
      else if a₁ < a₂ then (2, 0) else if a₂ < a₁ then (-2, 0)
      else if o₁ < o₂ then (2, 0) else if o₂ < o₁ then (-2, 0) else r) =
    (if [-(l₁ : ℤ), (a₁ : ℤ), (o₁ : ℤ)] < [-(l₂ : ℤ), (a₂ : ℤ), (o₂ : ℤ)] then (2, 0)
      else if [-(l₂ : ℤ), (a₂ : ℤ), (o₂ : ℤ)] < [-(l₁ : ℤ), (a₁ : ℤ), (o₁ : ℤ)] then (-2, 0)
      else r) := by
  simp only [List.cons_lt_cons_iff, List.lt_irrefl, and_false, or_false, neg_lt_neg_iff,
    neg_inj, Nat.cast_lt, Nat.cast_inj]
  split_ifs <;> first | rfl | omega

/-- The comparison of two eligible paths: first the level, then the MED. -/
theorem prefixCmp_eligible {p q : Prefix} (hp : prefixEligible p) (hq : prefixEligible q) :
    prefixCmp c (some p) (some q) =
      if prefixLevel p < prefixLevel q then (2, 0)
      else if prefixLevel q < prefixLevel p then (-2, 0)
      else prefixCmpMed c p q := by
  rw [prefixLevel, prefixLevel, ← levelSteps]
  simp only [prefixCmp, hp, hq, prefixCmpMed, Bool.not_true, Bool.false_eq_true, if_false]

/-- An ineligible path loses against everything that comes after it. -/
theorem prefixCmp_ineligible_right (p : Prefix) {q : Prefix} (hq : prefixEligible q = false) :
    prefixCmp c (some p) (some q) = (1, 0) := by
  simp [prefixCmp, hq]

theorem prefixCmp_ineligible_left {p q : Prefix} (hp : prefixEligible p = false)
    (hq : prefixEligible q) : prefixCmp c (some p) (some q) = (-1, 0) := by
  simp [prefixCmp, hp, hq]

/-- `p` is preferred to `q` by the MED check of strict evaluation. -/
structure Overtakes (c : DecideCtx) (p q : Prefix) : Prop where
  left : prefixEligible p
  right : prefixEligible q
  strict : c.flags.medAlways = false
  level : prefixLevel p = prefixLevel q
  sameAs : aspathNeighbor c.localAs p.asp.aspath = aspathNeighbor c.localAs q.asp.aspath
  med : p.asp.med < q.asp.med

instance (p q : Prefix) : Decidable (Overtakes c p q) :=
  decidable_of_iff (prefixEligible p ∧ prefixEligible q ∧ c.flags.medAlways = false ∧
      prefixLevel p = prefixLevel q ∧
      aspathNeighbor c.localAs p.asp.aspath = aspathNeighbor c.localAs q.asp.aspath ∧
      p.asp.med < q.asp.med)
    ⟨fun ⟨h₁, h₂, h₃, h₄, h₅, h₆⟩ => ⟨h₁, h₂, h₃, h₄, h₅, h₆⟩,
      fun ⟨h₁, h₂, h₃, h₄, h₅, h₆⟩ => ⟨h₁, h₂, h₃, h₄, h₅, h₆⟩⟩

@[simp] theorem overtakes_core_left {p q : Prefix} : Overtakes c p.core q ↔ Overtakes c p q :=
  ⟨fun ⟨h₁, h₂, h₃, h₄, h₅, h₆⟩ => ⟨h₁, h₂, h₃, h₄, h₅, h₆⟩,
    fun ⟨h₁, h₂, h₃, h₄, h₅, h₆⟩ => ⟨h₁, h₂, h₃, h₄, h₅, h₆⟩⟩

@[simp] theorem overtakes_core_right {p q : Prefix} : Overtakes c p q.core ↔ Overtakes c p q :=
  ⟨fun ⟨h₁, h₂, h₃, h₄, h₅, h₆⟩ => ⟨h₁, h₂, h₃, h₄, h₅, h₆⟩,
    fun ⟨h₁, h₂, h₃, h₄, h₅, h₆⟩ => ⟨h₁, h₂, h₃, h₄, h₅, h₆⟩⟩

theorem Overtakes.trans {p q s : Prefix} (h₁ : Overtakes c p q) (h₂ : Overtakes c q s) :
    Overtakes c p s :=
  ⟨h₁.left, h₂.right, h₁.strict, h₁.level.trans h₂.level, h₁.sameAs.trans h₂.sameAs,
    h₁.med.trans h₂.med⟩

theorem not_overtakes_self (p : Prefix) : ¬ Overtakes c p p := fun h => lt_irrefl _ h.med

/-- What the comparison returns when the MED check decides. -/
theorem Overtakes.cmp {p q : Prefix} (h : Overtakes c p q) :
    prefixCmp c (some p) (some q) = (2, 2) ∧ prefixCmp c (some q) (some p) = (-2, 2) := by
  have hn := h.med.not_gt
  rw [prefixCmp_eligible h.left h.right, prefixCmp_eligible h.right h.left]
  simp [h.level, prefixCmpMed, h.strict, h.sameAs, h.med, hn]

/-- `testall == 2` is only reached by the MED check. -/
theorem overtakes_of_testall {p q : Prefix} (ht : (prefixCmp c (some p) (some q)).2 = 2) :
    Overtakes c p q ∨ Overtakes c q p := by
  by_cases hq : prefixEligible q
  swap
  · rw [prefixCmp_ineligible_right p (by simpa using hq)] at ht
    cases ht
  by_cases hp : prefixEligible p
  swap
  · rw [prefixCmp_ineligible_left (by simpa using hp) hq] at ht
    cases ht
  rw [prefixCmp_eligible hp hq] at ht
  split_ifs at ht with h₁ h₂
  have hl : prefixLevel p = prefixLevel q := le_antisymm (not_lt.mp h₂) (not_lt.mp h₁)
  cases hm : c.flags.medAlways with
  | true =>
    simp only [prefixCmpMed, hm] at ht
    split_ifs at ht
  | false =>
    simp only [prefixCmpMed, hm, Bool.false_eq_true, false_or, if_false] at ht
    split_ifs at ht with h₃ h₄
    · exact Or.inl ⟨hp, hq, hm, hl, h₃.1, h₃.2⟩
    · exact Or.inr ⟨hq, hp, hm, hl.symm, h₄.1.symm, h₄.2⟩
    · cases ht

theorem overtakes_of_cmp {p q : Prefix} (hrv : (prefixCmp c (some p) (some q)).1 > 0)
    (ht : (prefixCmp c (some p) (some q)).2 = 2) : Overtakes c p q := by
  rcases overtakes_of_testall ht with h | h
  · exact h
  · rw [h.cmp.2] at hrv
    exact absurd hrv (by decide)

/-! ## One level of the insertion -/

/-- Where the scan of `prefix_insert` starts: at the head, or at a path `ep` that precedes
    the new one by its MED. The queue is `P ++ T` and the scan runs over `T`. -/
inductive Entry (c : DecideCtx) (new : Prefix) : Option Prefix → List Prefix → List Prefix → Prop
  | head (h : List Prefix) : Entry c new none [] h
  | at {P R : List Prefix} {ep e : Prefix} (hptr : ep.ptr = e.ptr) (hov : Overtakes c e new) :
      Entry c new (some ep) P (e :: R)

theorem dropWhile_ptr {P R : List Prefix} {e : Prefix}
    (h : ((P ++ e :: R).map (·.ptr)).Nodup) :
    (P ++ e :: R).dropWhile (fun x => x.ptr ≠ e.ptr) = e :: R := by
  have hP : ∀ x ∈ P, decide (x.ptr ≠ e.ptr) = true := by
    intro x hx
    rw [List.map_append, List.map_cons, List.nodup_middle, List.nodup_cons] at h
    have : x.ptr ≠ e.ptr := fun he =>
      h.1 (List.mem_append_left _ (List.mem_map.mpr ⟨x, hx, he⟩))
    simpa using this
  rw [List.dropWhile_append_of_pos hP, List.dropWhile_cons_of_neg (by simp)]

/-- The element behind a path in the middle of the list. -/
theorem tailqNext_middle {X Y : List Prefix} {x : Prefix} {q : Ptr} (hx : x.ptr = q)
    (hnd : ((X ++ x :: Y).map (·.ptr)).Nodup) : tailqNext (X ++ x :: Y) q = Y.head? := by
  subst hx
  rw [tailqNext, dropWhile_ptr hnd, List.drop_one, List.tail_cons]

theorem tailqPrev_middle {X Y : List Prefix} {x : Prefix} {q : Ptr} (hx : x.ptr = q)
    (hnd : ((X ++ x :: Y).map (·.ptr)).Nodup) : tailqPrev (X ++ x :: Y) q = X.getLast? := by
  subst hx
  have hX : ∀ y ∈ X, decide (y.ptr ≠ x.ptr) = true := by
    intro y hy
    rw [List.map_append, List.map_cons, List.nodup_middle, List.nodup_cons] at hnd
    have : y.ptr ≠ x.ptr := fun heq =>
      hnd.1 (List.mem_append_left _ (List.mem_map.mpr ⟨y, hy, heq⟩))
    simpa using this
  rw [tailqPrev, List.takeWhile_append_of_pos hX, List.takeWhile_cons]
  simp

/-- The entry point itself becomes the insertion point in the first step. -/
theorem insertScan_at {new ep e : Prefix} {P R : List Prefix} (hov : Overtakes c e new) :
    insertScan c new (e :: R) { h := P ++ e :: R, insertp := some ep } =
      insertScan c new R { h := P ++ e :: R, insertp := some e } := by
  rw [insertScan, hov.cmp.2]
  simp [InsertScan.fixup]

/-- What the scan leaves behind for the insertion proper. -/
theorem insertScan_entry {new : Prefix} {ep : Option Prefix} {P T : List Prefix}
    (hnd : ((P ++ T).map (·.ptr)).Nodup) (hE : Entry c new ep P T) :
    GapSim (gapScan c new.core (coreList T) { before := coreList P }) []
      (insertScan c new T { h := P ++ T, insertp := ep }) := by
  have hnd' : ((coreList P ++ coreList T).map (·.ptr)).Nodup := by simpa using hnd
  cases hE with
  | head =>
    exact insertScan_gap new ⟨by simp, by simp, rfl, rfl, by simpa using hnd⟩
  | @«at» _ R ep e _ hov =>
    have hg : gapScan c new.core (coreList (e :: R)) { before := coreList P } =
        gapScan c new.core (coreList R) { before := coreList P ++ [e.core] } := by
      rw [coreList_cons, gapScan, prefixCmp_core, hov.cmp.2]
      simp
    rw [hg, insertScan_at hov]
    exact insertScan_gap new ⟨by simp, by simp, rfl, rfl, by simpa using hnd⟩

/-- One level of `prefix_insert`: the queue with the new path in it, and the redo queue. -/
def insertLevel (c : DecideCtx) (new : Prefix) (ep : Option Prefix) (h : List Prefix) :
    List Prefix × List Prefix :=
  let st := insertScan c new (scanStart h ep) { h := h, insertp := ep }
  let h := insertAtPoint st.h st.insertp new
  let h := prefixSetDmetric c h st.insertp (some new)
  (prefixSetDmetric c h (some new) (tailqNext h new.ptr), st.redo)

/-- After one level the paths taken out are inserted again, starting at the new one. -/
theorem prefixInsertFuel_succ (fuel : ℕ) (new : Prefix) (ep : Option Prefix) (h : List Prefix) :
    prefixInsertFuel c (fuel + 1) new ep h =
      (insertLevel c new ep h).2.foldl (fun h xp => prefixInsertFuel c fuel xp (some new) h)
        (insertLevel c new ep h).1 := rfl

theorem Entry.scanStart {new : Prefix} {ep : Option Prefix} {P T : List Prefix}
    (hE : Entry c new ep P T) (hnd : ((P ++ T).map (·.ptr)).Nodup) :
    scanStart (P ++ T) ep = T := by
  cases hE with
  | head => rfl
  | «at» hptr => simpa only [Rde.scanStart, hptr] using dropWhile_ptr hnd

/-- One level of `prefix_insert` is one gap search. -/
theorem insertLevel_core {new : Prefix} {ep : Option Prefix} {P T : List Prefix} {g : Gap}
    (hnd : ((P ++ T).map (·.ptr)).Nodup) (hE : Entry c new ep P T)
    (hg : gapScan c new.core (coreList T) { before := coreList P } = g) :
    coreList (insertLevel c new ep (P ++ T)).1 = g.before ++ new.core :: g.behind ∧
      coreList (insertLevel c new ep (P ++ T)).2 = g.redo := by
  have hsim := insertScan_entry hnd hE
  rw [hg] at hsim
  simp only [insertLevel, hE.scanStart hnd]
  generalize insertScan c new T { h := P ++ T, insertp := ep } = st at hsim
  refine ⟨?_, hsim.redo⟩
  rw [coreList_prefixSetDmetric, coreList_prefixSetDmetric]
  have hq := hsim.queue
  have hip := hsim.insertp
  have hndq := hsim.nodup
  simp only [coreList_nil, List.append_nil] at hq hndq
  rcases List.eq_nil_or_concat g.before with hb | ⟨A, a, hb⟩
  · rw [hb] at hip hq ⊢
    have hnone : st.insertp = none := by simpa using hip
    simp [insertAtPoint, hnone, hq]
  · rw [hb] at hip hq hndq ⊢
    simp only [List.concat_eq_append, List.append_assoc, List.singleton_append] at hndq hq
    obtain ⟨q, hq', hqa⟩ : ∃ q, st.insertp = some q ∧ q.ptr = a.ptr := by
      simpa using hip
    simp only [insertAtPoint, hq', coreList_tailqInsertAfter, hq, hqa, tailqInsertAfter_middle hndq]
    simp

/-! ## No path is lost -/

theorem gapScan_perm (new : Prefix) (l : List Prefix) (g : Gap) :
    ((gapScan c new l g).before ++ (gapScan c new l g).behind ++ (gapScan c new l g).redo).Perm
      (g.before ++ g.behind ++ g.redo ++ l) := by
  induction l generalizing g with
  | nil => simp [gapScan]
  | cons xp np ih =>
    rw [gapScan]
    dsimp only
    -- in each branch `xp` is appended to one of the three parts
    split_ifs
    · refine (ih _).trans ?_
      simp
    · simp only [List.append_assoc]
      exact List.Perm.append_left _ (List.Perm.append_left _ List.perm_append_comm)
    all_goals
      refine (ih _).trans ?_
      simp only [List.append_assoc, List.singleton_append, List.append_nil]
      exact List.Perm.append_left _ (List.Perm.append_left _ List.perm_middle.symm)

/-- Only paths the new one overtakes are evaluated again. -/
theorem gapScan_redo (new : Prefix) (l : List Prefix) (g : Gap) :
    ∀ x ∈ (gapScan c new l g).redo, x ∈ g.redo ∨ Overtakes c new x := by
  induction l generalizing g with
  | nil => exact fun x hx => Or.inl hx
  | cons xp np ih =>
    rw [gapScan]
    dsimp only
    split_ifs with hrv ht
    · intro x hx
      rcases ih _ x hx with hx | hx
      · rcases List.mem_append.mp hx with hx | hx
        · exact Or.inl hx
        · rw [List.mem_singleton.mp hx]
          exact Or.inr (overtakes_of_cmp hrv ht)
      · exact Or.inr hx
    · exact fun x hx => Or.inl hx
    all_goals
      intro x hx
      have := ih _ x hx
      exact this

/-- How many listed paths `p` would take out, which bounds the depth of the recursion. -/
def overtaken (c : DecideCtx) (p : Prefix) (l : List Prefix) : ℕ :=
  l.countP (fun x => decide (Overtakes c p x))

@[simp] theorem overtaken_core (p : Prefix) (l : List Prefix) :
    overtaken c p.core l = overtaken c p l := by
  simp [overtaken]

/-- The paths taken out for `new` overtake less than `new` does. -/
theorem overtaken_lt {new x : Prefix} {h L rs : List Prefix} (hx : Overtakes c new x)
    (hp : (L ++ x :: rs).Perm (new :: h)) : overtaken c x L < overtaken c new h := by
  have hself : overtaken c new (new :: h) = overtaken c new h := by
    simp [overtaken, not_overtakes_self]
  have hsub : overtaken c x L ≤ overtaken c new L :=
    List.countP_mono_left fun y _ hy => by
      simp only [decide_eq_true_eq] at hy ⊢
      exact hx.trans hy
  have hcount : overtaken c new (L ++ x :: rs) = overtaken c new h := by
    rw [← hself]
    exact hp.countP_eq _
  have hsplit : overtaken c new (L ++ x :: rs) =
      overtaken c new L + (overtaken c new rs + 1) := by
    simp [overtaken, List.countP_append, hx]
  omega

theorem coreList_split {L : List Prefix} {e : Prefix} (h : e ∈ coreList L) :
    ∃ P R e', L = P ++ e' :: R ∧ e'.core = e := by
  obtain ⟨e', he', rfl⟩ := List.mem_map.mp h
  obtain ⟨P, R, rfl⟩ := List.append_of_mem he'
  exact ⟨P, R, e', rfl, rfl⟩

theorem nodup_of_coreList_perm {L K : List Prefix} (h : (coreList L).Perm K)
    (hK : (K.map (·.ptr)).Nodup) : (L.map (·.ptr)).Nodup := by
  rw [← coreList_ptr L]
  exact (h.map _).nodup_iff.mpr hK

/-- The part of the queue before the scan is empty, or the scan starts at a path that
    precedes the new one by its MED. -/
def EntryPoint (c : DecideCtx) (new : Prefix) (P T : List Prefix) : Prop :=
  P = [] ∨ ∃ e R, T = e :: R ∧ Overtakes c e new

theorem Entry.point {new : Prefix} {ep : Option Prefix} {P T : List Prefix}
    (h : Entry c new ep P T) : EntryPoint c new.core (coreList P) (coreList T) := by
  cases h with
  | head => exact Or.inl rfl
  | «at» _ hov => exact Or.inr ⟨_, _, rfl, by simpa using hov⟩

/-- While the redo queue of `new` is worked off, the queue `L` and what is left of the redo
    queue are the paths `S` together with `new`. -/
structure Redo (c : DecideCtx) (new : Prefix) (S L rs : List Prefix) : Prop where
  perm : (coreList L ++ coreList rs).Perm (new.core :: S)
  mem : new.core ∈ coreList L
  ahead : ∀ x ∈ rs, Overtakes c new x

theorem insertLevel_redo {new : Prefix} {ep : Option Prefix} {P T : List Prefix}
    (hnd : ((P ++ T).map (·.ptr)).Nodup) (hE : Entry c new ep P T) :
    Redo c new (coreList (P ++ T)) (insertLevel c new ep (P ++ T)).1
      (insertLevel c new ep (P ++ T)).2 := by
  obtain ⟨hh, hredo⟩ := insertLevel_core hnd hE rfl
  refine ⟨?_, by simp [hh], fun x hx => ?_⟩
  · have hp := gapScan_perm (c := c) new.core (coreList T) { before := coreList P }
    simp only [List.append_nil, List.append_assoc] at hp
    rw [hh, hredo, coreList_append, List.append_assoc, List.cons_append]
    exact List.perm_middle.trans (hp.cons _)
  · have hx' : x.core ∈ coreList (insertLevel c new ep (P ++ T)).2 := List.mem_map_of_mem hx
    rw [hredo] at hx'
    simpa using gapScan_redo new.core (coreList T) { before := coreList P } x.core hx'

/-- The next path of the redo queue is inserted behind `new`. -/
theorem Redo.entry {new x : Prefix} {S L rs : List Prefix} (h : Redo c new S L (x :: rs)) :
    ∃ P T, L = P ++ T ∧ Entry c x (some new) P T := by
  obtain ⟨P, R, e, rfl, he⟩ := coreList_split h.mem
  refine ⟨P, e :: R, rfl, Entry.at ?_ ?_⟩
  · rw [← Prefix.core_ptr, ← he, Prefix.core_ptr]
  · rw [← overtakes_core_left, he, overtakes_core_left]
    exact h.ahead x (List.mem_cons_self ..)

theorem Redo.perm_cons {new x : Prefix} {S L rs : List Prefix} (h : Redo c new S L (x :: rs)) :
    (x.core :: (coreList L ++ coreList rs)).Perm (new.core :: S) :=
  List.perm_middle.symm.trans h.perm

theorem Redo.subperm {new x : Prefix} {S L rs : List Prefix} (h : Redo c new S L (x :: rs)) :
    (x.core :: coreList L).Subperm (new.core :: S) :=
  ((List.sublist_append_left _ _).cons_cons _).subperm.trans h.perm_cons.subperm

theorem Redo.nodup {new x : Prefix} {S L rs : List Prefix} (h : Redo c new S L (x :: rs))
    (hS : ((new.core :: S).map (·.ptr)).Nodup) : ((x :: L).map (·.ptr)).Nodup := by
  rw [← coreList_ptr, coreList_cons]
  obtain ⟨l, hl, hsub⟩ := h.subperm
  exact (hl.map _).nodup_iff.mp (hS.sublist (hsub.map _))

theorem Redo.overtaken_lt {new x : Prefix} {S L rs : List Prefix}
    (h : Redo c new S L (x :: rs)) : overtaken c x (coreList L) < overtaken c new S := by
  have hx : Overtakes c new.core x.core := by simpa using h.ahead x (List.mem_cons_self ..)
  simpa only [overtaken_core] using Rde.overtaken_lt hx h.perm

/-- The path at hand has been inserted. -/
theorem Redo.next {new x : Prefix} {S L K rs : List Prefix} (h : Redo c new S L (x :: rs))
    (hK : (coreList K).Perm (x.core :: coreList L)) : Redo c new S K rs :=
  ⟨(hK.append_right _).trans h.perm_cons, hK.mem_iff.mpr (List.mem_cons_of_mem _ h.mem),
    fun y hy => h.ahead y (List.mem_cons_of_mem _ hy)⟩

/-- The rule for working off a redo queue. -/
theorem Redo.foldl_rule {Q : List Prefix → Prop} {f : List Prefix → Prefix → List Prefix}
    {new : Prefix} {S L rs : List Prefix}
    (hf : ∀ {x L rs}, Redo c new S L (x :: rs) → Q L →
      (coreList (f L x)).Perm (x.core :: coreList L) ∧ Q (f L x))
    (h : Redo c new S L rs) (hQ : Q L) :
    (coreList (rs.foldl f L)).Perm (new.core :: S) ∧ Q (rs.foldl f L) := by
  induction rs generalizing L with
  | nil => exact ⟨by simpa using h.perm, hQ⟩
  | cons x rs ih =>
    obtain ⟨hp, hQ'⟩ := hf h hQ
    exact ih (h.next hp) hQ'

/-- Two ways to insert the paths of the redo queue lead to the same queue. -/
theorem Redo.foldl_congr {f g : List Prefix → Prefix → List Prefix} {new : Prefix}
    {S L rs : List Prefix}
    (hfg : ∀ {x L rs}, Redo c new S L (x :: rs) →
      f L x = g L x ∧ (coreList (f L x)).Perm (x.core :: coreList L))
    (h : Redo c new S L rs) : rs.foldl f L = rs.foldl g L := by
  induction rs generalizing L with
  | nil => rfl
  | cons x rs ih =>
    obtain ⟨heq, hp⟩ := hfg h
    rw [List.foldl_cons, List.foldl_cons, ← heq]
    exact ih (h.next hp)

/-- **Induction rule for `prefix_insert`**. With enough fuel the insertion adds exactly the
    new path, and a property `Q` of the queue that each level keeps holds at the end.
    `S` bounds the paths that occur. -/
theorem prefixInsertFuel_rule {Q : List Prefix → Prop} {S : List Prefix}
    (hlevel : ∀ {new ep P T}, ((new :: (P ++ T)).map (·.ptr)).Nodup → Entry c new ep P T →
      (new.core :: coreList (P ++ T)).Subperm S → Q (P ++ T) →
      Q (insertLevel c new ep (P ++ T)).1)
    (fuel : ℕ) {new : Prefix} {ep : Option Prefix} {P T : List Prefix}
    (hnd : ((new :: (P ++ T)).map (·.ptr)).Nodup) (hE : Entry c new ep P T)
    (hfuel : overtaken c new (coreList (P ++ T)) < fuel)
    (hS : (new.core :: coreList (P ++ T)).Subperm S) (hQ : Q (P ++ T)) :
    (coreList (prefixInsertFuel c fuel new ep (P ++ T))).Perm (new.core :: coreList (P ++ T)) ∧
      Q (prefixInsertFuel c fuel new ep (P ++ T)) := by
  induction fuel generalizing new ep P T with
  | zero => exact absurd hfuel (Nat.not_lt_zero _)
  | succ fuel ih =>
    rw [prefixInsertFuel_succ]
    refine Redo.foldl_rule (fun {x L rs} hr hQL => ?_)
      (insertLevel_redo (List.nodup_cons.mp hnd).2 hE) (hlevel hnd hE hS hQ)
    obtain ⟨P', T', rfl, hE'⟩ := hr.entry
    have hnd' := hr.nodup (by rwa [← coreList_cons, coreList_ptr])
    have hlt := hr.overtaken_lt
    exact ih hnd' hE' (by omega) (hr.subperm.trans hS) hQL

/-- With enough fuel the result does not depend on it: the recursion ends. -/
theorem prefixInsertFuel_eq (fuel fuel' : ℕ) {new : Prefix} {ep : Option Prefix}
    {P T : List Prefix} (hnd : ((new :: (P ++ T)).map (·.ptr)).Nodup) (hE : Entry c new ep P T)
    (hfuel : overtaken c new (coreList (P ++ T)) < fuel)
    (hfuel' : overtaken c new (coreList (P ++ T)) < fuel') :
    prefixInsertFuel c fuel new ep (P ++ T) = prefixInsertFuel c fuel' new ep (P ++ T) := by
  induction fuel generalizing fuel' new ep P T with
  | zero => exact absurd hfuel (Nat.not_lt_zero _)
  | succ fuel ih =>
    cases fuel' with
    | zero => exact absurd hfuel' (Nat.not_lt_zero _)
    | succ fuel' =>
      rw [prefixInsertFuel_succ, prefixInsertFuel_succ]
      refine Redo.foldl_congr (fun {x L rs} hr => ?_)
        (insertLevel_redo (List.nodup_cons.mp hnd).2 hE)
      obtain ⟨P', T', rfl, hE'⟩ := hr.entry
      have hnd' := hr.nodup (by rwa [← coreList_cons, coreList_ptr])
      have hlt := hr.overtaken_lt
      exact ⟨ih fuel' hnd' hE' (by omega) (by omega),
        (prefixInsertFuel_rule (Q := fun _ => True) (fun _ _ _ _ => trivial) fuel hnd' hE'
          (by omega) (List.Subperm.refl _) trivial).1⟩

theorem overtaken_le_length (p : Prefix) (l : List Prefix) : overtaken c p l ≤ l.length :=
  List.countP_le_length

theorem overtaken_coreList_lt (p : Prefix) (h : List Prefix) :
    overtaken c p (coreList h) < h.length + 1 := by
  have hle := overtaken_le_length (c := c) p (coreList h)
  simp only [coreList, List.length_map] at hle
  exact Nat.lt_succ_of_le hle

/-- **Termination**: the bound of `prefixInsert` on the depth is never reached. -/
theorem prefixInsert_eq {new : Prefix} {h : List Prefix}
    (hnd : ((new :: h).map (·.ptr)).Nodup) {fuel : ℕ} (hfuel : h.length < fuel) :
    prefixInsertFuel c fuel new none h = prefixInsert c new none h := by
  have hlt := overtaken_coreList_lt (c := c) new h
  exact prefixInsertFuel_eq fuel (h.length + 1) (P := []) hnd (Entry.head h)
    (hlt.trans_le hfuel) hlt

/-- The rule for `prefix_insert` from the head. -/
theorem prefixInsert_levels {Q : List Prefix → Prop} {S : List Prefix}
    (hlevel : ∀ {new ep P T}, ((new :: (P ++ T)).map (·.ptr)).Nodup → Entry c new ep P T →
      (new.core :: coreList (P ++ T)).Subperm S → Q (P ++ T) →
      Q (insertLevel c new ep (P ++ T)).1)
    {new : Prefix} {h : List Prefix} (hnd : ((new :: h).map (·.ptr)).Nodup)
    (hS : (new.core :: coreList h).Subperm S) (hQ : Q h) :
    (coreList (prefixInsert c new none h)).Perm (new.core :: coreList h) ∧
      Q (prefixInsert c new none h) :=
  prefixInsertFuel_rule hlevel (h.length + 1) (P := []) hnd (Entry.head h)
    (overtaken_coreList_lt new h) hS hQ

/-- A property of the paths that each gap search keeps is kept by each level. -/
theorem insertLevel_of_gapScan {Q : List Prefix → Prop} {S : List Prefix}
    (hstep : ∀ new P T, (new :: (P ++ T)).Subperm S → EntryPoint c new P T → Q (P ++ T) →
      Q ((gapScan c new T { before := P }).before ++
        new :: (gapScan c new T { before := P }).behind))
    {new : Prefix} {ep : Option Prefix} {P T : List Prefix}
    (hnd : ((new :: (P ++ T)).map (·.ptr)).Nodup) (hE : Entry c new ep P T)
    (hS : (new.core :: coreList (P ++ T)).Subperm S) (hQ : Q (coreList (P ++ T))) :
    Q (coreList (insertLevel c new ep (P ++ T)).1) := by
  rw [(insertLevel_core (List.nodup_cons.mp hnd).2 hE rfl).1]
  exact hstep _ _ _ (by simpa using hS) hE.point (by simpa using hQ)

/-- The rule for properties of the paths alone. -/
theorem prefixInsert_rule {Q : List Prefix → Prop} {S : List Prefix}
    (hstep : ∀ new P T, (new :: (P ++ T)).Subperm S → EntryPoint c new P T → Q (P ++ T) →
      Q ((gapScan c new T { before := P }).before ++
        new :: (gapScan c new T { before := P }).behind))
    {new : Prefix} {h : List Prefix} (hnd : ((new :: h).map (·.ptr)).Nodup)
    (hS : (new.core :: coreList h).Subperm S) (hQ : Q (coreList h)) :
    (coreList (prefixInsert c new none h)).Perm (new.core :: coreList h) ∧
      Q (coreList (prefixInsert c new none h)) :=
  prefixInsert_levels (Q := fun h => Q (coreList h))
    (fun hnd hE hS hQ => insertLevel_of_gapScan hstep hnd hE hS hQ) hnd hS hQ

/-- `prefix_insert` from the head adds exactly the new path. -/
theorem prefixInsert_perm {new : Prefix} {h : List Prefix}
    (hnd : ((new :: h).map (·.ptr)).Nodup) :
    (coreList (prefixInsert c new none h)).Perm (new.core :: coreList h) :=
  (prefixInsert_rule (Q := fun _ => True) (fun _ _ _ _ _ _ => trivial) hnd
    (List.Subperm.refl _) trivial).1

/-! ## Removal -/

/-- The loop of `prefix_remove`: what stays in the queue and what is taken out. -/
def takeOut (c : DecideCtx) (old : Prefix) : List Prefix → List Prefix × List Prefix
  | [] => ([], [])
  | xp :: np =>
    let testall := (prefixCmp c (some old) (some xp)).2
    if testall = 2 then ((takeOut c old np).1, xp :: (takeOut c old np).2)
    else if testall = 0 then (xp :: np, [])
    else (xp :: (takeOut c old np).1, (takeOut c old np).2)

theorem takeOut_perm (old : Prefix) (l : List Prefix) :
    ((takeOut c old l).1 ++ (takeOut c old l).2).Perm l := by
  induction l with
  | nil => exact List.Perm.refl _
  | cons xp np ih =>
    rw [takeOut]
    split_ifs
    · exact List.perm_middle.trans (ih.cons xp)
    · simp
    · exact ih.cons xp

/-- The scan of `prefix_remove` takes the elements out of the queue. -/
theorem removeScan_takeOut (old : Prefix) (X todo : List Prefix) (st : RemoveScan)
    (hq : coreList st.h = X ++ coreList todo)
    (hnd : ((X ++ coreList todo).map (·.ptr)).Nodup) :
    coreList (removeScan c old todo st).h = X ++ (takeOut c old.core (coreList todo)).1 ∧
      coreList (removeScan c old todo st).redo =
        coreList st.redo ++ (takeOut c old.core (coreList todo)).2 := by
  induction todo generalizing X st with
  | nil => simpa [takeOut, removeScan] using hq
  | cons xp np ih =>
    rw [coreList_cons, takeOut, removeScan, prefixCmp_core]
    generalize (prefixCmp c (some old) (some xp)).2 = testall
    dsimp only
    rw [coreList_cons] at hnd hq
    have hfix : coreList (if st.removed = true then
        { st with h := prefixSetDmetric c st.h (tailqPrev st.h xp.ptr) (some xp), removed := false }
        else st).h = X ++ xp.core :: coreList np ∧ (if st.removed = true then
        { st with h := prefixSetDmetric c st.h (tailqPrev st.h xp.ptr) (some xp), removed := false }
        else st).redo = st.redo := by
      -- the metric of `xp` may be set, which is not part of the core
      split_ifs
      · exact ⟨by simpa using hq, rfl⟩
      · exact ⟨hq, rfl⟩
    by_cases h2 : testall = 2
    -- `xp` was held back by the path that goes
    · simp only [h2, if_true]
      have hnd' := hnd
      rw [List.map_append, List.map_cons, List.nodup_middle, List.nodup_cons] at hnd'
      obtain ⟨ih₁, ih₂⟩ := ih X
        { st with h := tailqRemove st.h xp.ptr, redo := st.redo ++ [xp], removed := true }
        (by rw [coreList_tailqRemove, hq, ← Prefix.core_ptr xp, tailqRemove_middle hnd])
        (by simpa using hnd'.2)
      exact ⟨ih₁, by simpa using ih₂⟩
    · simp only [h2, if_false]
      by_cases h0 : testall = 0
      · simp only [h0, if_true]
        exact ⟨hfix.1, by simp [hfix.2]⟩
      · simp only [h0, if_false]
        obtain ⟨ih₁, ih₂⟩ := ih (X ++ [xp.core]) (if st.removed = true then
          { st with
            h := prefixSetDmetric c st.h (tailqPrev st.h xp.ptr) (some xp)
            removed := false }
          else st) (by simpa using hfix.1) (by simpa using hnd)
        exact ⟨by simpa using ih₁, by rw [ih₂, hfix.2]⟩

/-- `prefix_remove` up to the reinsertion: the queue without `old` and the paths it has to
    reconsider, and these paths. -/
def removeLevel (c : DecideCtx) (old : Prefix) (h : List Prefix) : List Prefix × List Prefix :=
  let xp := tailqNext h old.ptr
  let pp := tailqPrev h old.ptr
  let tail := (h.dropWhile (fun x => x.ptr ≠ old.ptr)).drop 1
  let h := tailqRemove h old.ptr
  let st : RemoveScan :=
    if (prefixCmp c (some old) xp).2 > 0 then removeScan c old tail { h := h } else { h := h }
  (match pp with
    | some p => prefixSetDmetric c st.h (some p) (tailqNext st.h p.ptr)
    | none => prefixSetDmetric c st.h none st.h.head?, st.redo)

theorem prefixRemove_eq (old : Prefix) (h : List Prefix) :
    prefixRemove c old h = (removeLevel c old h).2.foldl (fun h xp => prefixInsert c xp none h)
      (removeLevel c old h).1 := rfl

/-- What `prefix_remove` takes out. -/
theorem removeLevel_core {old o : Prefix} {X Y : List Prefix} (ho : o.ptr = old.ptr)
    (hnd : ((X ++ o :: Y).map (·.ptr)).Nodup) :
    coreList (removeLevel c old (X ++ o :: Y)).1 =
        coreList X ++ (takeOut c old.core (coreList Y)).1 ∧
      coreList (removeLevel c old (X ++ o :: Y)).2 = (takeOut c old.core (coreList Y)).2 := by
  have hdrop : (X ++ o :: Y).dropWhile (fun x => x.ptr ≠ old.ptr) = o :: Y := by
    rw [← ho]
    exact dropWhile_ptr hnd
  have hnext : tailqNext (X ++ o :: Y) old.ptr = Y.head? := by
    simp only [tailqNext, hdrop, List.drop_one, List.tail_cons]
  have hrem : tailqRemove (X ++ o :: Y) old.ptr = X ++ Y := by
    rw [← ho]
    exact tailqRemove_middle hnd
  have hnd' : ((coreList X ++ coreList Y).map (·.ptr)).Nodup := by
    rw [List.map_append, List.map_cons, List.nodup_middle, List.nodup_cons] at hnd
    simpa using hnd.2
  have hscan := removeScan_takeOut (c := c) old (coreList X) Y { h := X ++ Y } (by simp) hnd'
  -- without a possible MED inversion the scan would not take anything out
  have hskip : ¬ (prefixCmp c (some old) Y.head?).2 > 0 →
      takeOut c old.core (coreList Y) = (coreList Y, []) := by
    intro hz
    cases Y with
    | nil => rfl
    | cons y Y =>
      have h0 : (prefixCmp c (some old.core) (some y.core)).2 = 0 := by
        simpa [prefixCmp_core] using hz
      simp [takeOut, h0]
  simp only [removeLevel, hdrop, hnext, hrem, List.drop_one, List.tail_cons]
  generalize hst : (if (prefixCmp c (some old) Y.head?).2 > 0 then
    removeScan c old Y { h := X ++ Y } else { h := X ++ Y }) = st
  have hst' : coreList st.h = coreList X ++ (takeOut c old.core (coreList Y)).1 ∧
      coreList st.redo = (takeOut c old.core (coreList Y)).2 := by
    rw [← hst]
    split_ifs with hz
    · simpa using hscan
    · simp [hskip hz]
  refine ⟨?_, hst'.2⟩
  split <;> rw [coreList_prefixSetDmetric] <;> exact hst'.1

/-- The rule for inserting a queue of further paths one by one. -/
theorem insertAll_rule {Q : List Prefix → Prop} {S : List Prefix}
    (hlevel : ∀ {new ep P T}, ((new :: (P ++ T)).map (·.ptr)).Nodup → Entry c new ep P T →
      (new.core :: coreList (P ++ T)).Subperm S → Q (P ++ T) →
      Q (insertLevel c new ep (P ++ T)).1)
    (rs : List Prefix) {L : List Prefix} (hnd : ((L ++ rs).map (·.ptr)).Nodup)
    (hS : (coreList (L ++ rs)).Subperm S) (hQ : Q L) :
    (coreList (rs.foldl (fun h xp => prefixInsert c xp none h) L)).Perm (coreList (L ++ rs)) ∧
      Q (rs.foldl (fun h xp => prefixInsert c xp none h) L) := by
  induction rs generalizing L with
  | nil => exact ⟨by simp, hQ⟩
  | cons x rs ih =>
    rw [List.map_append, List.map_cons, List.nodup_middle] at hnd
    have hsub : (x.core :: coreList L).Sublist (x.core :: (coreList L ++ coreList rs)) :=
      (List.sublist_append_left _ _).cons_cons _
    have hswap : (x.core :: (coreList L ++ coreList rs)).Perm (coreList (L ++ x :: rs)) := by
      rw [coreList_append, coreList_cons]
      exact List.perm_middle.symm
    obtain ⟨hins, hQ'⟩ := prefixInsert_levels hlevel
      (hnd.sublist ((List.sublist_append_left _ _).cons_cons _))
      ((hsub.subperm.trans hswap.subperm).trans hS) hQ
    have hperm : (coreList (prefixInsert c x none L ++ rs)).Perm (coreList (L ++ x :: rs)) := by
      rw [coreList_append]
      exact (hins.append_right _).trans hswap
    obtain ⟨hp, hQ''⟩ := ih
      (nodup_of_coreList_perm hperm (by simpa [List.nodup_middle] using hnd))
      (hperm.subperm.trans hS) hQ'
    exact ⟨hp.trans hperm, hQ''⟩

/-- **Rule for `prefix_remove`**: it removes exactly the given path, and keeps a property
    that holds after taking out and that each level of an insertion keeps. -/
theorem prefixRemove_levels {Q : List Prefix → Prop} {S : List Prefix}
    (hlevel : ∀ {new ep P T}, ((new :: (P ++ T)).map (·.ptr)).Nodup → Entry c new ep P T →
      (new.core :: coreList (P ++ T)).Subperm S → Q (P ++ T) →
      Q (insertLevel c new ep (P ++ T)).1)
    {old o : Prefix} {X Y : List Prefix} (ho : o.ptr = old.ptr)
    (hnd : ((X ++ o :: Y).map (·.ptr)).Nodup) (hS : (coreList (X ++ Y)).Subperm S)
    (hQ : Q (removeLevel c old (X ++ o :: Y)).1) :
    (coreList (prefixRemove c old (X ++ o :: Y))).Perm (coreList (X ++ Y)) ∧
      Q (prefixRemove c old (X ++ o :: Y)) := by
  obtain ⟨hh, hredo⟩ := removeLevel_core (c := c) ho hnd
  have hp : (coreList ((removeLevel c old (X ++ o :: Y)).1 ++
      (removeLevel c old (X ++ o :: Y)).2)).Perm (coreList (X ++ Y)) := by
    rw [coreList_append, hh, hredo, coreList_append, List.append_assoc]
    exact (takeOut_perm old.core (coreList Y)).append_left _
  rw [List.map_append, List.map_cons, List.nodup_middle, List.nodup_cons] at hnd
  rw [prefixRemove_eq]
  obtain ⟨hperm, hQ'⟩ := insertAll_rule hlevel _
    (nodup_of_coreList_perm hp (by simpa using hnd.2)) (hp.subperm.trans hS) hQ
  exact ⟨hperm.trans hp, hQ'⟩

/-- The rule for properties of the paths alone. -/
theorem prefixRemove_rule {Q : List Prefix → Prop} {S : List Prefix}
    (hstep : ∀ new P T, (new :: (P ++ T)).Subperm S → EntryPoint c new P T → Q (P ++ T) →
      Q ((gapScan c new T { before := P }).before ++
        new :: (gapScan c new T { before := P }).behind))
    {old o : Prefix} {X Y : List Prefix} (ho : o.ptr = old.ptr)
    (hnd : ((X ++ o :: Y).map (·.ptr)).Nodup) (hS : (coreList (X ++ Y)).Subperm S)
    (hQ : Q (coreList X ++ (takeOut c old.core (coreList Y)).1)) :
    (coreList (prefixRemove c old (X ++ o :: Y))).Perm (coreList (X ++ Y)) ∧
      Q (coreList (prefixRemove c old (X ++ o :: Y))) :=
  prefixRemove_levels (Q := fun h => Q (coreList h))
    (fun hnd hE hS hQ => insertLevel_of_gapScan hstep hnd hE hS hQ) ho hnd hS
    ((removeLevel_core ho hnd).1 ▸ hQ)

/-- `prefix_remove` removes exactly the given path. -/
theorem prefixRemove_perm {old o : Prefix} {X Y : List Prefix} (ho : o.ptr = old.ptr)
    (hnd : ((X ++ o :: Y).map (·.ptr)).Nodup) :
    (coreList (prefixRemove c old (X ++ o :: Y))).Perm (coreList (X ++ Y)) :=
  (prefixRemove_rule (Q := fun _ => True) (fun _ _ _ _ _ _ => trivial) ho hnd
    (List.Subperm.refl _) trivial).1

/-! ## Eligible paths stand first -/

/-- No eligible path stands behind an ineligible one. -/
def EligibleFirst (l : List Prefix) : Prop :=
  l.Pairwise (fun x y => prefixEligible y → prefixEligible x)

@[simp] theorem eligibleFirst_coreList {h : List Prefix} :
    EligibleFirst (coreList h) ↔ EligibleFirst h := by
  simp [EligibleFirst, coreList, List.pairwise_map]

/-- A queue with the eligible paths first is the eligible ones, then the others. -/
theorem EligibleFirst.split {l : List Prefix} (h : EligibleFirst l) :
    l = l.filter prefixEligible ++ l.filter (fun x => !prefixEligible x) := by
  induction l with
  | nil => rfl
  | cons x t ih =>
    obtain ⟨hx, ht⟩ := List.pairwise_cons.mp h
    cases hxe : prefixEligible x with
    | true => simp [hxe, ← ih ht]
    | false =>
      have hnone : t.filter prefixEligible = [] := by
        rw [List.filter_eq_nil_iff]
        exact fun y hy hye => absurd (hx y hy hye) (by simp [hxe])
      have hall : t.filter (fun x => !prefixEligible x) = t := by
        rw [List.filter_eq_self]
        intro y hy
        have : ¬ prefixEligible y = true := fun hye => absurd (hx y hy hye) (by simp [hxe])
        simpa using this
      simp [hxe, hnone, hall]

theorem eligibleFirst_append {E I : List Prefix} (hE : ∀ x ∈ E, prefixEligible x)
    (hI : EligibleFirst I) : EligibleFirst (E ++ I) := by
  refine List.pairwise_append.mpr ⟨?_, hI, fun x hx _ _ _ => hE x hx⟩
  exact List.pairwise_iff_forall_sublist.mpr fun hs _ => hE _ (hs.subset (by simp))

theorem gapScan_sublist (new : Prefix) (l : List Prefix) (g : Gap) :
    ((gapScan c new l g).before ++ (gapScan c new l g).behind).Sublist
      (g.before ++ g.behind ++ l) := by
  induction l generalizing g with
  | nil => simp [gapScan]
  | cons xp np ih =>
    rw [gapScan]
    dsimp only
    split_ifs
    · refine (ih _).trans ?_
      exact (List.Sublist.refl _).append (List.sublist_cons_self ..)
    · simp
    all_goals
      refine (ih _).trans ?_
      simp

/-- Everything before the gap is eligible. -/
theorem gapScan_before_eligible (new : Prefix) (l : List Prefix) {g : Gap}
    (h : ∀ x ∈ g.before ++ g.behind, prefixEligible x) :
    ∀ x ∈ (gapScan c new l g).before, prefixEligible x := by
  induction l generalizing g with
  | nil => exact fun x hx => h x (List.mem_append_left _ hx)
  | cons xp np ih =>
    -- an ineligible element ends the scan
    have hxp : ∀ hne : ¬ ((prefixCmp c (some new) (some xp)).1 > 0 ∧
        (prefixCmp c (some new) (some xp)).2 = 0), prefixEligible xp := by
      intro hne
      by_contra he
      rw [prefixCmp_ineligible_right new (by simpa using he)] at hne
      exact hne ⟨by decide, rfl⟩
    rw [gapScan]
    dsimp only
    split_ifs with hrv h2 h0
    · exact ih h
    · exact fun x hx => h x (List.mem_append_left _ hx)
    all_goals
      refine ih fun x hx => ?_
      have := hxp (by tauto)
      simp only [List.mem_append, List.mem_singleton] at h hx
      grind

/-- An ineligible path is put behind all eligible ones. -/
theorem gapScan_ineligible {new : Prefix} (hn : prefixEligible new = false) {E I : List Prefix}
    (hE : ∀ x ∈ E, prefixEligible x) (hI : ∀ x ∈ I, prefixEligible x = false) (P : List Prefix) :
    gapScan c new (E ++ I) { before := P } = { before := P ++ E, behind := I } := by
  induction E generalizing P with
  | nil =>
    cases I with
    | nil => simp [gapScan]
    | cons y I =>
      simp [gapScan, prefixCmp_ineligible_right new (hI y (List.mem_cons_self ..))]
  | cons x E ih =>
    have hx := prefixCmp_ineligible_left (c := c) hn (hE x (List.mem_cons_self ..))
    rw [List.cons_append, gapScan]
    simp only [hx]
    simpa using ih (fun y hy => hE y (List.mem_cons_of_mem _ hy)) (P ++ [x])

/-- A gap search keeps the eligible paths first. -/
theorem gapScan_eligibleFirst {new : Prefix} {P T : List Prefix} (hent : EntryPoint c new P T)
    (h : EligibleFirst (P ++ T)) :
    EligibleFirst ((gapScan c new T { before := P }).before ++
      new :: (gapScan c new T { before := P }).behind) := by
  have hPT := List.pairwise_append.mp h
  cases hn : prefixEligible new with
  | true =>
    -- whatever stands before the entry point is eligible because the entry point is
    have hP : ∀ x ∈ P, prefixEligible x := by
      rcases hent with rfl | ⟨e, R, rfl, hov⟩
      · simp
      · exact fun x hx => hPT.2.2 x hx e (List.mem_cons_self ..) hov.left
    have hb := gapScan_before_eligible (c := c) new T (g := { before := P })
      (by simpa using hP)
    have hsub := gapScan_sublist (c := c) new T { before := P }
    simp only [List.append_nil] at hsub
    refine eligibleFirst_append hb (List.pairwise_cons.mpr ⟨fun _ _ _ => hn, ?_⟩)
    exact (h.sublist hsub).sublist (List.sublist_append_right ..)
  | false =>
    rcases hent with rfl | ⟨e, R, rfl, hov⟩
    · -- the search puts the new path behind the last eligible one
      rw [List.nil_append] at h
      rw [h.split, gapScan_ineligible hn (fun x hx => (List.mem_filter.mp hx).2)
        (fun x hx => by simpa using (List.mem_filter.mp hx).2)]
      refine eligibleFirst_append (fun x hx => (List.mem_filter.mp hx).2) ?_
      refine List.pairwise_cons.mpr ⟨fun y hy hye => ?_, ?_⟩
      · exact absurd hye (by simpa using (List.mem_filter.mp hy).2)
      · exact h.sublist List.filter_sublist
    · exact absurd hov.right (by simp [hn])

theorem prefixInsert_eligibleFirst {new : Prefix} {h : List Prefix}
    (hnd : ((new :: h).map (·.ptr)).Nodup) (he : EligibleFirst h) :
    EligibleFirst (prefixInsert c new none h) := by
  rw [← eligibleFirst_coreList] at he ⊢
  exact (prefixInsert_rule (fun _ _ _ _ hent hq => gapScan_eligibleFirst hent hq) hnd
    (List.Subperm.refl _) he).2

theorem takeOut_sublist (old : Prefix) (l : List Prefix) : (takeOut c old l).1.Sublist l := by
  induction l with
  | nil => exact List.Sublist.refl _
  | cons xp np ih =>
    rw [takeOut]
    split_ifs
    · exact ih.cons xp
    · exact List.Sublist.refl _
    · exact ih.cons_cons xp

theorem prefixRemove_eligibleFirst {old o : Prefix} {X Y : List Prefix} (ho : o.ptr = old.ptr)
    (hnd : ((X ++ o :: Y).map (·.ptr)).Nodup) (he : EligibleFirst (X ++ o :: Y)) :
    EligibleFirst (prefixRemove c old (X ++ o :: Y)) := by
  rw [← eligibleFirst_coreList] at he ⊢
  refine (prefixRemove_rule (fun _ _ _ _ hent hq => gapScan_eligibleFirst hent hq) ho hnd
    (List.Subperm.refl _) (he.sublist ?_)).2
  rw [coreList_append]
  exact ((takeOut_sublist old.core _).trans (List.sublist_cons_self ..)).append_left _

end Bgpd.Rde
