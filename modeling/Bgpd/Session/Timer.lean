import Mathlib.Data.List.Nodup
import Mathlib.Data.List.Pairwise
import Mathlib.Tactic.SplitIfs

/-!
# Timers of a Peer

Model of `timer.c`. The timers of a peer are a list that is sorted by expiry; a stopped timer
stays in the list, behind all running ones. The list carries the proof that it is sorted and
that no timer is in it twice.

Times are counted in units of `MONOTIME_RES`. The monotonic clock is never 0, which is what
`monotime_clear` stands for, so the time of a stopped timer is `none`.

## Main definitions

- `TimerHead`: `struct timer_head`
- `TimerHead.set`, `TimerHead.stop`, `TimerHead.nextisdue`
- `TimerHead.Running`: a timer is set
-/

namespace Bgpd.Session

/-- The timers of `enum Timer` that peers have. -/
inductive TimerType where
  | connectRetry | keepalive | hold | sendHold | idleHold | idleHoldReset | carpUndemote
  | restartTimeout | sessionDown
  deriving DecidableEq, Repr

/-- `struct timer` -/
structure Timer where
  type : TimerType
  val : Option ℕ
  deriving DecidableEq, Repr

/-- `MONOTIME_RES` -/
def monotimeRes : ℕ := 1000 * 1000

/-- `a` may stand before `b`: if `b` is running then `a` is, and it is not due later. -/
def Timer.Before (a b : Timer) : Prop := ∀ v, b.val = some v → ∃ u, a.val = some u ∧ u ≤ v

/-- `struct timer_head` -/
structure TimerHead where
  list : List Timer
  once : (list.map Timer.type).Nodup
  sorted : list.Pairwise Timer.Before

namespace TimerHead

variable {th : TimerHead} {t t' : TimerType} {now offset v : ℕ} {l : List Timer} {x y : Timer}

/-- `TAILQ_INIT`, and what `timer_remove_all` leaves. -/
def empty : TimerHead := ⟨[], List.nodup_nil, List.Pairwise.nil⟩

/-- `timer_get` -/
def get (th : TimerHead) (t : TimerType) : Option Timer := th.list.find? (·.type = t)

/-- `timer_nextisdue` -/
def nextisdue (th : TimerHead) (now : ℕ) : Option TimerType :=
  match th.list.head? with
  | some x => if x.val.any (· ≤ now) then some x.type else none
  | none => none

/-! ## Setting a timer -/

/-- The loop of `timer_set`: before the first timer that is stopped or due later. -/
def insert (x : Timer) (v : ℕ) : List Timer → List Timer
  | [] => [x]
  | next :: l => if next.val.all (v < ·) then x :: next :: l else next :: insert x v l

theorem mem_insert {v : ℕ} : y ∈ insert x v l ↔ y = x ∨ y ∈ l := by
  induction l with
  | nil => simp [insert]
  | cons next l ih =>
    rw [insert]
    split_ifs with h
    · exact List.mem_cons
    · rw [List.mem_cons, ih, List.mem_cons]
      tauto

theorem nodup_insert {v : ℕ} (hnew : x.type ∉ l.map Timer.type) (h : (l.map Timer.type).Nodup) :
    ((insert x v l).map Timer.type).Nodup := by
  induction l with
  | nil => simp [insert]
  | cons next l ih =>
    rw [insert]
    split_ifs with hlt
    · exact List.nodup_cons.mpr ⟨hnew, h⟩
    · rw [List.map_cons, List.mem_cons, not_or] at hnew
      rw [List.map_cons, List.nodup_cons] at h ⊢
      refine ⟨fun hmem => ?_, ih hnew.2 h.2⟩
      obtain ⟨y, hy, hty⟩ := List.mem_map.mp hmem
      rcases mem_insert.mp hy with rfl | hy
      · exact hnew.1 hty
      · exact h.1 (List.mem_map.mpr ⟨y, hy, hty⟩)

/-- Insertion keeps the timers in order of their times. -/
theorem sorted_insert {v : ℕ} (hx : x.val = some v) (h : l.Pairwise Timer.Before) :
    (insert x v l).Pairwise Timer.Before := by
  induction l with
  | nil => exact List.pairwise_singleton _ _
  | cons next l ih =>
    have hcons := List.pairwise_cons.mp h
    rw [insert]
    split_ifs with hlt
    · refine List.pairwise_cons.mpr ⟨fun y hy w hw => ⟨v, hx, ?_⟩, h⟩
      -- what stands behind `next` is due no earlier than it
      have hnext : ∃ u, next.val = some u ∧ u ≤ w := by
        rcases List.mem_cons.mp hy with rfl | hy
        · exact ⟨w, hw, Nat.le_refl w⟩
        · exact hcons.1 y hy w hw
      obtain ⟨u, hu, hle⟩ := hnext
      rw [hu, Option.all_some, decide_eq_true_eq] at hlt
      exact Nat.le_trans (Nat.le_of_lt hlt) hle
    · refine List.pairwise_cons.mpr ⟨fun y hy => ?_, ih hcons.2⟩
      rcases mem_insert.mp hy with rfl | hy
      · intro w hw
        obtain rfl : v = w := by simpa [hx] using hw
        cases hv : next.val with
        | none => simp [hv] at hlt
        | some u => exact ⟨u, rfl, by simpa [hv] using hlt⟩
      · exact hcons.1 y hy

/-- `TAILQ_REMOVE` of the timer `t`. -/
def erase (l : List Timer) (t : TimerType) : List Timer := l.eraseP (·.type = t)

theorem erase_sublist : (erase l t).Sublist l := List.eraseP_sublist

theorem nodup_erase (h : (l.map Timer.type).Nodup) : ((erase l t).map Timer.type).Nodup :=
  h.sublist (erase_sublist.map _)

theorem not_mem_erase (h : (l.map Timer.type).Nodup) : t ∉ (erase l t).map Timer.type := by
  induction l with
  | nil => exact List.not_mem_nil
  | cons x l ih =>
    rw [List.map_cons, List.nodup_cons] at h
    by_cases hx : x.type = t
    · rw [erase, List.eraseP_cons_of_pos (by simpa using hx), ← hx]
      exact h.1
    · rw [erase, List.eraseP_cons_of_neg (by simpa using hx), List.map_cons, List.mem_cons, not_or]
      exact ⟨fun heq => hx heq.symm, ih h.2⟩

theorem mem_erase_of_ne (hne : x.type ≠ t) : x ∈ erase l t ↔ x ∈ l :=
  List.mem_eraseP_of_neg (by simpa using hne)

/-- The list of `timer_set` after the change. -/
def setList (th : TimerHead) (t : TimerType) (ms : ℕ) : List Timer :=
  match th.get t with
  | none => insert ⟨t, some ms⟩ ms th.list
  | some x => if x.val = some ms then th.list else insert ⟨t, some ms⟩ ms (erase th.list t)

theorem not_mem_of_get (h : th.get t = none) : t ∉ th.list.map Timer.type := by
  intro hmem
  obtain ⟨x, hx, rfl⟩ := List.mem_map.mp hmem
  exact absurd (List.find?_eq_none.mp h x hx) (by simp)

theorem mem_of_get (h : th.get t = some x) : x ∈ th.list ∧ x.type = t :=
  ⟨List.mem_of_find?_eq_some h, by simpa using List.find?_some h⟩

/-- `timer_set`; `now` is what `getmonotime` returns. -/
def set (th : TimerHead) (now : ℕ) (t : TimerType) (offset : ℕ) : TimerHead where
  list := th.setList t (offset * monotimeRes + now)
  once := by
    rw [setList]
    split
    · exact nodup_insert (not_mem_of_get ‹_›) th.once
    · split_ifs
      · exact th.once
      · exact nodup_insert (not_mem_erase th.once) (nodup_erase th.once)
  sorted := by
    rw [setList]
    split
    · exact sorted_insert rfl th.sorted
    · split_ifs
      · exact th.sorted
      · exact sorted_insert rfl (th.sorted.sublist erase_sublist)

/-! ## Stopping a timer -/

/-- The list of `timer_stop` after the change. -/
def stopList (th : TimerHead) (t : TimerType) : List Timer :=
  if (th.get t).isSome then erase th.list t ++ [⟨t, none⟩] else th.list

/-- `timer_stop` -/
def stop (th : TimerHead) (t : TimerType) : TimerHead where
  list := th.stopList t
  once := by
    rw [stopList]
    split_ifs
    · rw [List.map_append, List.nodup_append]
      refine ⟨nodup_erase th.once, List.nodup_singleton _, fun a ha b hb hab => ?_⟩
      obtain rfl : b = t := by simpa using hb
      exact not_mem_erase th.once (hab ▸ ha)
    · exact th.once
  sorted := by
    rw [stopList]
    split_ifs
    · refine List.pairwise_append.mpr ⟨th.sorted.sublist erase_sublist,
        List.pairwise_singleton _ _, fun a _ b hb v hv => ?_⟩
      obtain rfl : b = ⟨t, none⟩ := by simpa using hb
      cases hv
    · exact th.sorted

/-! ## Running timers -/

/-- The timer is set to the time `v`. -/
def At (th : TimerHead) (t : TimerType) (v : ℕ) : Prop := ⟨t, some v⟩ ∈ th.list

/-- The timer is running. -/
def Running (th : TimerHead) (t : TimerType) : Prop := ∃ v, th.At t v

/-- The timer is running and its time has come. -/
def Due (th : TimerHead) (now : ℕ) (t : TimerType) : Prop := ∃ v, th.At t v ∧ v ≤ now

theorem Due.running (h : th.Due now t) : th.Running t := ⟨h.choose, h.choose_spec.1⟩

@[simp] theorem not_at_empty : ¬ empty.At t v := List.not_mem_nil

/-- What `timer_nextisdue` reports is due, so a stopped timer is never reported. -/
theorem due_of_nextisdue (h : th.nextisdue now = some t) : th.Due now t := by
  rw [nextisdue] at h
  cases hl : th.list with
  | nil => simp [hl] at h
  | cons x l =>
    rw [hl] at h
    simp only [List.head?_cons] at h
    split_ifs at h with hdue
    obtain rfl := Option.some.inj h
    cases hv : x.val with
    | none => simp [hv] at hdue
    | some v =>
      refine ⟨v, ?_, by simpa [hv] using hdue⟩
      rw [At, hl, ← hv]
      exact List.mem_cons_self

/-- `timer_nextisdue` reports nothing only if nothing is due: the list is sorted. -/
theorem not_due_of_nextisdue (h : th.nextisdue now = none) : ¬ th.Due now t := by
  rintro ⟨v, hmem, hle⟩
  rw [nextisdue] at h
  rw [At] at hmem
  cases hl : th.list with
  | nil => simp [hl] at hmem
  | cons x l =>
    have hsorted := th.sorted
    rw [hl] at h hmem hsorted
    have hfirst : ∃ u, x.val = some u ∧ u ≤ v := by
      rcases List.mem_cons.mp hmem with rfl | hmem
      · exact ⟨v, rfl, Nat.le_refl v⟩
      · exact (List.pairwise_cons.mp hsorted).1 _ hmem v rfl
    obtain ⟨u, hu, huv⟩ := hfirst
    simp [hu, Nat.le_trans huv hle] at h

@[simp] theorem at_stop : (th.stop t).At t' v ↔ t' ≠ t ∧ th.At t' v := by
  change _ ∈ th.stopList t ↔ _
  by_cases hne : t' = t
  · subst hne
    refine ⟨fun h => ?_, fun h => absurd rfl h.1⟩
    rw [stopList] at h
    split_ifs at h with hget
    · rcases List.mem_append.mp h with h | h
      · exact absurd (List.mem_map.mpr ⟨_, h, rfl⟩) (not_mem_erase th.once)
      · cases (List.mem_singleton.mp h)
    · exact absurd (List.mem_map.mpr ⟨_, h, rfl⟩) (not_mem_of_get (by simpa using hget))
  · rw [and_iff_right hne, At, stopList]
    split_ifs
    · rw [List.mem_append, List.mem_singleton, mem_erase_of_ne hne, or_iff_left]
      intro h
      exact hne (congrArg Timer.type h)
    · rfl

/-- A timer that was set is running with the new time. -/
theorem at_set_self : (th.set now t offset).At t (offset * monotimeRes + now) := by
  change _ ∈ th.setList t _
  rw [setList]
  split
  · exact mem_insert.mpr (Or.inl rfl)
  · split_ifs with hval
    · have hget := mem_of_get ‹_›
      rw [← hval, ← hget.2]
      exact hget.1
    · exact mem_insert.mpr (Or.inl rfl)

/-- A running timer has one time. -/
theorem At.unique {u : ℕ} (hu : th.At t u) (hv : th.At t v) : u = v :=
  Option.some.inj (congrArg Timer.val (List.inj_on_of_nodup_map th.once hu hv rfl))

@[simp] theorem at_set : (th.set now t offset).At t' v ↔
    (t' = t ∧ v = offset * monotimeRes + now) ∨ (t' ≠ t ∧ th.At t' v) := by
  by_cases hne : t' = t
  · subst hne
    simp only [true_and, ne_eq, not_true_eq_false, false_and, or_false]
    exact ⟨fun h => h.unique at_set_self, fun h => h ▸ at_set_self⟩
  · rw [iff_false_intro hne, false_and, false_or, and_iff_right (by exact hne)]
    change _ ∈ th.setList t _ ↔ _
    have hne' : (⟨t', some v⟩ : Timer) ≠ ⟨t, some (offset * monotimeRes + now)⟩ :=
      fun h => hne (congrArg Timer.type h)
    rw [setList]
    split
    · rw [mem_insert, or_iff_right hne', At]
    · split_ifs
      · rfl
      · rw [mem_insert, or_iff_right hne', mem_erase_of_ne hne, At]

@[simp] theorem running_stop : (th.stop t).Running t' ↔ t' ≠ t ∧ th.Running t' := by
  simp [Running]

@[simp] theorem running_set : (th.set now t offset).Running t' ↔ t' = t ∨ th.Running t' := by
  by_cases hne : t' = t <;> simp [Running, hne]

-- the lists are only reached through the lemmas above
attribute [irreducible] set stop

end TimerHead

end Bgpd.Session
