import Bgpd.Lib.Run
import Bgpd.Rde.Nexthop

/-!
# Validity of Nexthops

When the runner is done with a nexthop, all paths that are linked to it know its state. While
it is under way, the paths before the cursor do, and if the state did not change with the last
update, all of them do.

## Main results

- `NhOk`: the invariant of one nexthop and its paths
- `NhInv.step`: no event that the callers may cause ends with `fatalx`, and all of them keep
  the invariant
- `nexthop_validity`: the invariant in terms of the source
-/

namespace Bgpd.Rde.Nexthops

open Bgpd.Lib

variable {s s' : NhState} {a b : BgpdAddr} {nh : Nexthop} {x y : NhPrefix} {p : Ptr}
  {ps : List NhPrefix} {held : ℕ} {queued : Prop}

/-! ## Invariant -/

/-- The path knows the state of the nexthop. -/
def Knows (state : NexthopState) (x : NhPrefix) : Prop := x.nhvalid = true ↔ state = .reach

/-- A nexthop, the paths that use it and the number of other references. -/
structure NhOk (held : ℕ) (ps : List NhPrefix) (queued : Prop) (nh : Nexthop) : Prop where
  nodup : nh.prefixH.Nodup
  mem : ∀ p, p ∈ nh.prefixH ↔ ∃ x ∈ ps, x.ptr = p ∧ x.linked = true
  evaluate : ∀ x ∈ ps, x.linked = true → x.noevaluate = false
  refs : nh.refcnt = held + ps.length + if nh.state = .lookup then 1 else 0
  pos : 0 < nh.refcnt
  state : nh.state ≠ .flapped
  queue : queued ↔ nh.nextPrefix ≠ none
  /-- The runner is done with the paths before the cursor, and there is nothing to do for the
      others if the state did not change. -/
  cursor : ∃ done todo, nh.prefixH = done ++ todo ∧ todo.head? = nh.nextPrefix ∧
    (∀ x ∈ ps, x.ptr ∈ done → Knows nh.state x) ∧
    (nh.oldstate = nh.state → ∀ x ∈ ps, x.ptr ∈ todo → Knows nh.state x)

/-- The paths that use a nexthop. -/
def NhState.paths (s : NhState) (a : BgpdAddr) : List NhPrefix :=
  s.prefixes.filter fun x => x.nexthop = some a

/-- An address, with or without a nexthop. -/
def NhState.At (s : NhState) (a : BgpdAddr) : Prop :=
  match s.nexthops a with
  | none => s.held a = 0 ∧ s.paths a = [] ∧ a ∉ s.runners
  | some nh => NhOk (s.held a) (s.paths a) (a ∈ s.runners) nh

structure NhInv (s : NhState) : Prop where
  ptrs : (s.prefixes.map NhPrefix.ptr).Nodup
  runners : s.runners.Nodup
  each : ∀ a, s.At a

theorem NhInv.init : NhInv {} where
  ptrs := List.nodup_nil
  runners := List.nodup_nil
  each _ := ⟨rfl, rfl, List.not_mem_nil⟩

theorem NhInv.ok (hi : NhInv s) (h : s.nexthops a = some nh) :
    NhOk (s.held a) (s.paths a) (a ∈ s.runners) nh := by
  have hat := hi.each a
  unfold NhState.At at hat
  rw [h] at hat
  exact hat

theorem NhInv.nexthop_of_held (hi : NhInv s) (h : 0 < s.held a) : ∃ nh, s.nexthops a = some nh := by
  cases hnh : s.nexthops a with
  | some nh => exact ⟨nh, rfl⟩
  | none =>
    have hat := hi.each a
    unfold NhState.At at hat
    rw [hnh] at hat
    omega

theorem mem_paths : x ∈ s.paths a ↔ x ∈ s.prefixes ∧ x.nexthop = some a := by
  simp [NhState.paths]

theorem NhInv.nexthop_of_mem (hi : NhInv s) (hx : x ∈ s.prefixes) (h : x.nexthop = some a) :
    ∃ nh, s.nexthops a = some nh := by
  cases hnh : s.nexthops a with
  | some nh => exact ⟨nh, rfl⟩
  | none =>
    have hat := hi.each a
    unfold NhState.At at hat
    rw [hnh] at hat
    have hmem : x ∈ s.paths a := mem_paths.mpr ⟨hx, h⟩
    rw [hat.2.1] at hmem
    exact absurd hmem List.not_mem_nil

/-- An event concerns a single nexthop. -/
theorem NhInv.change (hi : NhInv s) (a : BgpdAddr) (hptrs : (s'.prefixes.map NhPrefix.ptr).Nodup)
    (hrunners : s'.runners.Nodup) (hnexthops : ∀ b, b ≠ a → s'.nexthops b = s.nexthops b)
    (hheld : ∀ b, b ≠ a → s'.held b = s.held b) (hpaths : ∀ b, b ≠ a → s'.paths b = s.paths b)
    (hqueue : ∀ b, b ≠ a → (b ∈ s'.runners ↔ b ∈ s.runners)) (hat : s'.At a) : NhInv s' where
  ptrs := hptrs
  runners := hrunners
  each b := by
    by_cases hb : b = a
    · exact hb ▸ hat
    · have hold := hi.each b
      unfold NhState.At at hold ⊢
      rw [hnexthops b hb, hheld b hb, hpaths b hb]
      cases hnh : s.nexthops b with
      | none =>
        rw [hnh] at hold
        exact ⟨hold.1, hold.2.1, mt (hqueue b hb).mp hold.2.2⟩
      | some nh =>
        rw [hnh] at hold
        exact { hold with queue := (hqueue b hb).trans hold.queue }

/-! ## Writing a path -/

section Modify

variable {f : NhPrefix → NhPrefix}

/-- The write at a path leaves its address and its nexthop alone. -/
def Frame (f : NhPrefix → NhPrefix) : Prop := ∀ x, (f x).ptr = x.ptr ∧ (f x).nexthop = x.nexthop

/-- A list of paths after a write. -/
def modifyAt (p : Ptr) (f : NhPrefix → NhPrefix) (ps : List NhPrefix) : List NhPrefix :=
  ps.map fun x => if x.ptr = p then f x else x

theorem paths_modify (hf : Frame f) (b : BgpdAddr) :
    (s.modify p f).paths b = modifyAt p f (s.paths b) := by
  unfold NhState.paths NhState.modify modifyAt
  dsimp only
  induction s.prefixes with
  | nil => rfl
  | cons x rest ih =>
    have hnexthop : (if x.ptr = p then f x else x).nexthop = x.nexthop := by
      split_ifs
      · exact (hf x).2
      · rfl
    by_cases hx : x.nexthop = some b
    · simp [hnexthop, hx, ih]
    · simp [hnexthop, hx, ih]

theorem modifyAt_of_not_mem (h : ∀ x ∈ ps, x.ptr ≠ p) : modifyAt p f ps = ps := by
  unfold modifyAt
  rw [List.map_congr_left fun x hx => if_neg (h x hx), List.map_id']

theorem ptrs_modifyAt (hf : Frame f) :
    (modifyAt p f ps).map NhPrefix.ptr = ps.map NhPrefix.ptr := by
  unfold modifyAt
  rw [List.map_map]
  apply List.map_congr_left
  intro x _
  show (if x.ptr = p then f x else x).ptr = x.ptr
  split_ifs
  · exact (hf x).1
  · rfl

theorem eq_of_ptr (hptrs : (ps.map NhPrefix.ptr).Nodup) (hx : x ∈ ps) (hy : y ∈ ps)
    (h : x.ptr = y.ptr) : x = y :=
  List.inj_on_of_nodup_map hptrs hx hy h

theorem mem_modifyAt (hptrs : (ps.map NhPrefix.ptr).Nodup) (hx : x ∈ ps) :
    y ∈ modifyAt x.ptr f ps ↔ y = f x ∨ y ∈ ps ∧ y.ptr ≠ x.ptr := by
  unfold modifyAt
  rw [List.mem_map]
  constructor
  · rintro ⟨z, hz, rfl⟩
    split_ifs with hptr
    · rw [eq_of_ptr hptrs hz hx hptr]
      exact Or.inl rfl
    · exact Or.inr ⟨hz, hptr⟩
  · rintro (rfl | ⟨hy, hptr⟩)
    · exact ⟨x, hx, if_pos rfl⟩
    · exact ⟨y, hy, if_neg hptr⟩

theorem modifyAt_modifyAt {g : NhPrefix → NhPrefix} (hf : Frame f) :
    modifyAt p g (modifyAt p f ps) = modifyAt p (g ∘ f) ps := by
  unfold modifyAt
  rw [List.map_map]
  apply List.map_congr_left
  intro x _
  by_cases hx : x.ptr = p
  · simp [hx, (hf x).1]
  · simp [hx]

theorem length_modifyAt : (modifyAt p f ps).length = ps.length := List.length_map _

end Modify

theorem NhInv.ptrs_paths (hi : NhInv s) (a : BgpdAddr) :
    ((s.paths a).map NhPrefix.ptr).Nodup :=
  hi.ptrs.sublist (List.filter_sublist.map _)

/-- A path of another nexthop. -/
theorem NhInv.modifyAt_other (hi : NhInv s) {f : NhPrefix → NhPrefix} (hx : x ∈ s.prefixes)
    (h : x.nexthop ≠ some b) : modifyAt x.ptr f (s.paths b) = s.paths b := by
  apply modifyAt_of_not_mem
  intro y hy hptr
  obtain ⟨hy, hnexthop⟩ := mem_paths.mp hy
  rw [eq_of_ptr hi.ptrs hy hx hptr] at hnexthop
  exact h hnexthop

/-! ## One nexthop -/

namespace NhOk

/-- Another reference. -/
theorem ref (h : NhOk held ps queued nh) :
    NhOk (held + 1) ps queued { nh with refcnt := nh.refcnt + 1 } :=
  { h with
    refs := by
      have hrefs := h.refs
      dsimp only
      omega
    pos := Nat.succ_pos _ }

/-- A new path that is not linked yet. -/
theorem newPath (h : NhOk held ps queued nh) (hlinked : x.linked = false)
    (hnew : ∀ y ∈ ps, y.ptr ≠ x.ptr) :
    NhOk held (x :: ps) queued { nh with refcnt := nh.refcnt + 1 } := by
  have hptr : x.ptr ∉ nh.prefixH := by
    rw [h.mem]
    rintro ⟨y, hy, hptr, -⟩
    exact hnew y hy hptr
  have hout : ∀ l : List Ptr, (∀ q ∈ l, q ∈ nh.prefixH) → (∀ y ∈ ps, y.ptr ∈ l → Knows nh.state y) →
      ∀ y ∈ x :: ps, y.ptr ∈ l → Knows nh.state y := by
    intro l hl hps y hy hmem
    rcases List.mem_cons.mp hy with rfl | hy
    · exact absurd (hl _ hmem) hptr
    · exact hps y hy hmem
  obtain ⟨done, todo, hsplit, hhead, hdone, htodo⟩ := h.cursor
  exact
    { nodup := h.nodup
      mem := fun p => by simp [h.mem, hlinked]
      evaluate := fun y hy hlink => by
        rcases List.mem_cons.mp hy with rfl | hy
        · simp [hlinked] at hlink
        · exact h.evaluate y hy hlink
      refs := by
        have hrefs := h.refs
        simp only [List.length_cons]
        omega
      pos := Nat.succ_pos _
      state := h.state
      queue := h.queue
      cursor := ⟨done, todo, hsplit, hhead,
        hout done (fun q hq => by simp [hsplit, hq]) hdone,
        fun hold => hout todo (fun q hq => by simp [hsplit, hq]) (htodo hold)⟩ }

/-- A path is linked at the head of the list, before the cursor. -/
theorem link (h : NhOk held ps queued nh) (hptrs : (ps.map NhPrefix.ptr).Nodup) (hx : x ∈ ps)
    (hlinked : x.linked = false) (heval : x.noevaluate = false) :
    NhOk held (modifyAt x.ptr (fun x => { x with
      nhvalid := decide (nh.state = .reach), linked := true }) ps) queued
      { nh with prefixH := x.ptr :: nh.prefixH } := by
  -- a path that is not linked is not in the list
  have hptr : x.ptr ∉ nh.prefixH := by
    rw [h.mem]
    rintro ⟨y, hy, hptr, hlink⟩
    rw [eq_of_ptr hptrs hy hx hptr, hlinked] at hlink
    exact Bool.false_ne_true hlink
  obtain ⟨done, todo, hsplit, hhead, hdone, htodo⟩ := h.cursor
  refine ⟨?_, ?_, ?_, ?_, h.pos, h.state, h.queue, x.ptr :: done, todo, ?_, hhead, ?_, ?_⟩
  · exact List.nodup_cons.mpr ⟨hptr, h.nodup⟩
  · intro p
    rw [List.mem_cons, h.mem]
    simp only [mem_modifyAt hptrs hx]
    constructor
    · rintro (rfl | ⟨y, hy, rfl, hlink⟩)
      · exact ⟨_, Or.inl rfl, rfl, rfl⟩
      · refine ⟨y, Or.inr ⟨hy, fun heq => ?_⟩, rfl, hlink⟩
        rw [eq_of_ptr hptrs hy hx heq, hlinked] at hlink
        exact Bool.false_ne_true hlink
    · rintro ⟨y, rfl | ⟨hy, -⟩, rfl, hlink⟩
      · exact Or.inl rfl
      · exact Or.inr ⟨y, hy, rfl, hlink⟩
  -- a path that is linked is one of a RIB that evaluates
  · intro y hy hlink
    rcases (mem_modifyAt hptrs hx).mp hy with rfl | ⟨hy, -⟩
    · exact heval
    · exact h.evaluate y hy hlink
  · rw [length_modifyAt]
    exact h.refs
  · dsimp only
    rw [hsplit, List.cons_append]
  -- the path that is linked knows the state already
  · intro y hy hmem
    rcases (mem_modifyAt hptrs hx).mp hy with rfl | ⟨hy, hne⟩
    · simp [Knows]
    · exact hdone y hy (List.mem_of_ne_of_mem hne hmem)
  · intro hold y hy hmem
    rcases (mem_modifyAt hptrs hx).mp hy with rfl | ⟨hy, -⟩
    · simp [Knows]
    · exact htodo hold y hy hmem

/-- The paths after a write that leaves the linked ones alone. -/
theorem unlinked (h : NhOk held ps queued nh) (hptrs : (ps.map NhPrefix.ptr).Nodup) (hx : x ∈ ps)
    (hlinked : x.linked = false) (valid : Bool) :
    NhOk held (modifyAt x.ptr (fun x => { x with nhvalid := valid }) ps) queued nh := by
  have hptr : x.ptr ∉ nh.prefixH := by
    rw [h.mem]
    rintro ⟨y, hy, hptr, hlink⟩
    rw [eq_of_ptr hptrs hy hx hptr, hlinked] at hlink
    exact Bool.false_ne_true hlink
  obtain ⟨done, todo, hsplit, hhead, hdone, htodo⟩ := h.cursor
  have hout : ∀ l : List Ptr, (∀ q ∈ l, q ∈ nh.prefixH) →
      (∀ y ∈ ps, y.ptr ∈ l → Knows nh.state y) →
      ∀ y ∈ modifyAt x.ptr (fun x => { x with nhvalid := valid }) ps, y.ptr ∈ l →
        Knows nh.state y := by
    intro l hl hps y hy hmem
    rcases (mem_modifyAt hptrs hx).mp hy with rfl | ⟨hy, -⟩
    · exact absurd (hl _ hmem) hptr
    · exact hps y hy hmem
  refine ⟨h.nodup, ?_, ?_, ?_, h.pos, h.state, h.queue, done, todo, hsplit, hhead,
    hout done (fun q hq => by simp [hsplit, hq]) hdone,
    fun hold => hout todo (fun q hq => by simp [hsplit, hq]) (htodo hold)⟩
  · intro p
    rw [h.mem]
    simp only [mem_modifyAt hptrs hx]
    constructor
    · rintro ⟨y, hy, rfl, hlink⟩
      refine ⟨y, Or.inr ⟨hy, fun heq => ?_⟩, rfl, hlink⟩
      rw [eq_of_ptr hptrs hy hx heq, hlinked] at hlink
      exact Bool.false_ne_true hlink
    · rintro ⟨y, rfl | ⟨hy, -⟩, rfl, hlink⟩
      · exact ⟨x, hx, rfl, hlink⟩
      · exact ⟨y, hy, rfl, hlink⟩
  · intro y hy hlink
    rcases (mem_modifyAt hptrs hx).mp hy with rfl | ⟨hy, -⟩
    · exact h.evaluate x hx hlink
    · exact h.evaluate y hy hlink
  · rw [length_modifyAt]
    exact h.refs

end NhOk

theorem listNext_cons_self (p : Ptr) (l : List Ptr) : NhState.listNext p (p :: l) = l.head? :=
  if_pos rfl

/-- The element behind one that occurs once. -/
theorem listNext_append {l r : List Ptr} (h : p ∉ l) :
    NhState.listNext p (l ++ p :: r) = r.head? := by
  induction l with
  | nil => exact listNext_cons_self p r
  | cons q l ih =>
    rw [List.mem_cons, not_or] at h
    rw [List.cons_append, NhState.listNext, if_neg (Ne.symm h.1)]
    exact ih h.2

/-- Where the cursor is after an element was taken out of the list. -/
theorem cursor_erase {done todo : List Ptr} {next : Option Ptr} (hnodup : (done ++ todo).Nodup)
    (hmem : p ∈ done ++ todo) (hhead : todo.head? = next) :
    ∃ done' todo', (done ++ todo).erase p = done' ++ todo' ∧
      todo'.head? = (if next = some p then NhState.listNext p (done ++ todo) else next) ∧
      (∀ q ∈ done', q ∈ done) ∧ ∀ q ∈ todo', q ∈ todo := by
  by_cases hdone : p ∈ done
  · -- the runner is done with it
    have htodo : p ∉ todo := fun h => (List.nodup_append.mp hnodup).2.2 p hdone p h rfl
    have hnext : next ≠ some p := by
      rintro rfl
      exact htodo (List.mem_of_head? hhead)
    refine ⟨done.erase p, todo, List.erase_append_left todo hdone, ?_, ?_, fun q hq => hq⟩
    · rw [if_neg hnext]
      exact hhead
    · exact fun q hq => List.mem_of_mem_erase hq
  · have htodo : p ∈ todo := (List.mem_append.mp hmem).resolve_left hdone
    refine ⟨done, todo.erase p, List.erase_append_right todo hdone, ?_, fun q hq => hq,
      fun q hq => List.mem_of_mem_erase hq⟩
    cases todo with
    | nil => exact absurd htodo List.not_mem_nil
    | cons q rest =>
      rw [List.head?_cons] at hhead
      subst hhead
      by_cases hq : q = p
      · -- the cursor moves on
        subst hq
        rw [if_pos rfl, List.erase_cons_head, listNext_append hdone]
      · rw [if_neg (by simpa using hq), List.erase_cons_tail (by simpa using hq), List.head?_cons]

namespace NhOk

/-- A linked path is taken out of the list. -/
theorem unlink (h : NhOk held ps queued nh) (hptrs : (ps.map NhPrefix.ptr).Nodup) (hx : x ∈ ps)
    (hlinked : x.linked = true) {queued' : Prop}
    (hqueue : queued' ↔ (if nh.nextPrefix = some x.ptr then NhState.listNext x.ptr nh.prefixH
      else nh.nextPrefix) ≠ none) :
    NhOk held (modifyAt x.ptr (fun x => { x with nhvalid := false, linked := false }) ps) queued'
      { nh with
        nextPrefix := if nh.nextPrefix = some x.ptr then NhState.listNext x.ptr nh.prefixH
          else nh.nextPrefix
        prefixH := nh.prefixH.erase x.ptr } := by
  obtain ⟨done, todo, hsplit, hhead, hdone, htodo⟩ := h.cursor
  have hmem : x.ptr ∈ nh.prefixH := (h.mem _).mpr ⟨x, hx, rfl, hlinked⟩
  obtain ⟨done', todo', hsplit', hhead', hsub, hsub'⟩ :=
    cursor_erase (hsplit ▸ h.nodup) (hsplit ▸ hmem) hhead
  rw [← hsplit] at hsplit' hhead'
  have hgone : x.ptr ∉ done' ++ todo' := by
    rw [← hsplit']
    exact h.nodup.not_mem_erase
  -- what holds of the other paths of a list still holds
  have hout : ∀ l l' : List Ptr, (∀ q ∈ l', q ∈ l) → x.ptr ∉ l' →
      (∀ y ∈ ps, y.ptr ∈ l → Knows nh.state y) →
      ∀ y ∈ modifyAt x.ptr (fun x => { x with nhvalid := false, linked := false }) ps,
        y.ptr ∈ l' → Knows nh.state y := by
    intro l l' hl hno hps y hy hmem
    rcases (mem_modifyAt hptrs hx).mp hy with rfl | ⟨hy, -⟩
    · exact absurd hmem hno
    · exact hps y hy (hl _ hmem)
  rw [List.mem_append, not_or] at hgone
  refine ⟨h.nodup.erase _, ?_, ?_, ?_, h.pos, h.state, hqueue, done', todo', hsplit', hhead',
    hout done done' hsub hgone.1 hdone, fun hold => hout todo todo' hsub' hgone.2 (htodo hold)⟩
  · intro p
    rw [h.nodup.mem_erase_iff, h.mem]
    simp only [mem_modifyAt hptrs hx]
    constructor
    · rintro ⟨hne, y, hy, rfl, hlink⟩
      exact ⟨y, Or.inr ⟨hy, hne⟩, rfl, hlink⟩
    · rintro ⟨y, rfl | ⟨hy, hne⟩, rfl, hlink⟩
      · exact absurd hlink Bool.false_ne_true
      · exact ⟨hne, y, hy, rfl, hlink⟩
  · intro y hy hlink
    rcases (mem_modifyAt hptrs hx).mp hy with rfl | ⟨hy, -⟩
    · exact absurd hlink Bool.false_ne_true
    · exact h.evaluate y hy hlink
  · rw [length_modifyAt]
    exact h.refs

/-- Nobody uses the nexthop any more. -/
def Unused (held : ℕ) (ps : List NhPrefix) (queued : Prop) (nh : Nexthop) : Prop :=
  nh.refcnt = 1 ∧ nh.prefixH = [] ∧ nh.state ≠ .lookup ∧ nh.nextPrefix = none ∧ held = 0 ∧ ps = [] ∧
    ¬queued

theorem nextPrefix_of_nil (h : NhOk held ps queued nh) (hnil : nh.prefixH = []) :
    nh.nextPrefix = none := by
  obtain ⟨done, todo, hsplit, hhead, -⟩ := h.cursor
  rw [hnil] at hsplit
  rw [(List.append_eq_nil_iff.mp hsplit.symm).2] at hhead
  exact hhead.symm

/-- A reference of a holder, or of a path that is not linked, is dropped. -/
theorem drop (h : NhOk held ps queued nh) (held' : ℕ) (ps' : List NhPrefix)
    (hsub : ∀ y ∈ ps', y ∈ ps) (hlinked : ∀ y ∈ ps, y.linked = true → y ∈ ps')
    (hcount : held + ps.length = held' + ps'.length + 1) :
    NhOk held' ps' queued { nh with refcnt := nh.refcnt - 1 } ∨ Unused held' ps' queued nh := by
  have hrefs := h.refs
  by_cases hone : nh.refcnt = 1
  -- the last reference: nothing is linked any more
  · right
    have hlookup : nh.state ≠ .lookup := by
      intro hlookup
      rw [if_pos hlookup] at hrefs
      omega
    rw [if_neg hlookup] at hrefs
    have hps : ps' = [] := List.eq_nil_of_length_eq_zero (by omega)
    have hnil : nh.prefixH = [] := by
      apply List.eq_nil_iff_forall_not_mem.mpr
      intro p hp
      obtain ⟨y, hy, -, hlink⟩ := (h.mem p).mp hp
      have hy' := hlinked y hy hlink
      rw [hps] at hy'
      exact List.not_mem_nil hy'
    have hnext := h.nextPrefix_of_nil hnil
    exact ⟨hone, hnil, hlookup, hnext, by omega, hps, mt h.queue.mp (by simp [hnext])⟩
  · left
    have hpos := h.pos
    obtain ⟨done, todo, hsplit, hhead, hdone, htodo⟩ := h.cursor
    refine ⟨h.nodup, ?_, fun y hy => h.evaluate y (hsub y hy), ?_, ?_, h.state, h.queue, done, todo,
      hsplit, hhead, fun y hy => hdone y (hsub y hy), fun hold y hy => htodo hold y (hsub y hy)⟩
    · intro p
      rw [h.mem]
      constructor
      · rintro ⟨y, hy, hptr, hlink⟩
        exact ⟨y, hlinked y hy hlink, hptr, hlink⟩
      · rintro ⟨y, hy, hptr, hlink⟩
        exact ⟨y, hsub y hy, hptr, hlink⟩
    · dsimp only
      omega
    · dsimp only
      omega

/-- The nexthop gets a new state and the runner starts from the head of the list. -/
theorem restart (h : NhOk held ps queued nh) {new : Nexthop} {queued' : Prop}
    (hprefixH : new.prefixH = nh.prefixH) (hcnt : new.refcnt = held + ps.length)
    (hpos : 0 < new.refcnt) (hstate : new.state = .reach ∨ new.state = .unreach)
    (hold : new.oldstate = if nh.nextPrefix.isSome then .flapped else nh.state)
    (hnext : new.nextPrefix = nh.prefixH.head?) (hqueue : queued' ↔ new.nextPrefix ≠ none) :
    NhOk held ps queued' new := by
  have hne : new.state ≠ .lookup ∧ new.state ≠ .flapped := by
    rcases hstate with hst | hst <;> simp [hst]
  refine ⟨hprefixH ▸ h.nodup, fun p => hprefixH ▸ h.mem p, h.evaluate, ?_, hpos, hne.2, hqueue, [],
    nh.prefixH, hprefixH, hnext.symm, ?_, ?_⟩
  · rw [if_neg hne.1]
    exact hcnt
  · intro y _ hmem
    exact absurd hmem List.not_mem_nil
  · -- the runner was done, and the state is the same
    intro hsame y hy hmem
    obtain ⟨done, todo, hsplit, hhead, hdone, -⟩ := h.cursor
    cases hcur : nh.nextPrefix with
    | some q =>
      rw [hcur, Option.isSome_some, if_pos rfl, hsame] at hold
      exact absurd hold hne.2
    | none =>
      rw [hcur, Option.isSome_none, if_neg Bool.false_ne_true, hsame] at hold
      rw [hcur] at hhead
      rw [List.head?_eq_none_iff.mp hhead, List.append_nil] at hsplit
      rw [hold]
      exact hdone y hy (hsplit ▸ hmem)

/-- The runner goes on to the next path. -/
theorem advance (h : NhOk held ps queued { nh with nextPrefix := some p })
    (hptrs : (ps.map NhPrefix.ptr).Nodup) {queued' : Prop}
    (hqueue : queued' ↔ NhState.listNext p nh.prefixH ≠ none) :
    (∃ x ∈ ps, x.ptr = p) ∧
      NhOk held (modifyAt p (NhState.prefixEvaluateNexthop nh.state nh.oldstate) ps) queued'
        { nh with nextPrefix := NhState.listNext p nh.prefixH } := by
  obtain ⟨done, todo, hsplit, hhead, hdone, htodo⟩ := h.cursor
  dsimp only at hsplit hhead hdone htodo
  obtain ⟨rest, rfl⟩ : ∃ rest, todo = p :: rest := List.head?_eq_some_iff.mp hhead
  have hnodup : (done ++ p :: rest).Nodup := hsplit ▸ h.nodup
  have hmem : p ∈ nh.prefixH := by simp [hsplit]
  obtain ⟨x, hx, rfl, hlinked⟩ := (h.mem p).mp hmem
  have heval : x.noevaluate = false := h.evaluate x hx hlinked
  -- the callback changes neither the address nor the links
  have hf : ∀ z : NhPrefix, (NhState.prefixEvaluateNexthop nh.state nh.oldstate z).ptr = z.ptr ∧
      (NhState.prefixEvaluateNexthop nh.state nh.oldstate z).linked = z.linked ∧
      (NhState.prefixEvaluateNexthop nh.state nh.oldstate z).noevaluate = z.noevaluate := by
    intro z
    unfold NhState.prefixEvaluateNexthop
    split_ifs <;> exact ⟨rfl, rfl, rfl⟩
  have hknows : Knows nh.state (NhState.prefixEvaluateNexthop nh.state nh.oldstate x) := by
    unfold NhState.prefixEvaluateNexthop
    rw [heval, if_neg Bool.false_ne_true]
    split_ifs with hsame
    · exact htodo hsame x hx List.mem_cons_self
    · simp [Knows]
  have hnext : NhState.listNext x.ptr nh.prefixH = rest.head? := by
    rw [hsplit]
    apply listNext_append
    intro hdone
    exact (List.nodup_append.mp hnodup).2.2 _ hdone _ List.mem_cons_self rfl
  refine ⟨⟨x, hx, rfl⟩, h.nodup, ?_, ?_, ?_, h.pos, h.state, hqueue, done ++ [x.ptr], rest, ?_,
    hnext.symm, ?_, ?_⟩
  · intro q
    rw [h.mem]
    simp only [mem_modifyAt hptrs hx]
    constructor
    · rintro ⟨y, hy, rfl, hlink⟩
      by_cases heq : y.ptr = x.ptr
      · exact ⟨_, Or.inl rfl, (hf x).1.trans heq.symm, (hf x).2.1.trans hlinked⟩
      · exact ⟨y, Or.inr ⟨hy, heq⟩, rfl, hlink⟩
    · rintro ⟨y, rfl | ⟨hy, -⟩, rfl, hlink⟩
      · exact ⟨x, hx, (hf x).1.symm, hlinked⟩
      · exact ⟨y, hy, rfl, hlink⟩
  · intro y hy hlink
    rcases (mem_modifyAt hptrs hx).mp hy with rfl | ⟨hy, -⟩
    · exact (hf x).2.2.trans heval
    · exact h.evaluate y hy hlink
  · rw [length_modifyAt]
    exact h.refs
  · rw [hsplit, List.append_assoc, List.singleton_append]
  -- the path that was visited knows the state now
  · intro y hy hmem
    rcases (mem_modifyAt hptrs hx).mp hy with rfl | ⟨hy, hne⟩
    · exact hknows
    · rcases List.mem_append.mp hmem with hmem | hmem
      · exact hdone y hy hmem
      · exact absurd (List.mem_singleton.mp hmem) hne
  · intro hsame y hy hmem
    rcases (mem_modifyAt hptrs hx).mp hy with rfl | ⟨hy, -⟩
    · exact hknows
    · exact htodo hsame y hy (List.mem_cons_of_mem _ hmem)

end NhOk

/-! ## Events -/

theorem at_some (h : s.nexthops a = some nh)
    (hok : NhOk (s.held a) (s.paths a) (a ∈ s.runners) nh) :
    s.At a := by
  unfold NhState.At
  rw [h]
  exact hok

theorem at_none (h : s.nexthops a = none) (hheld : s.held a = 0) (hpaths : s.paths a = [])
    (hqueue : a ∉ s.runners) : s.At a := by
  unfold NhState.At
  rw [h]
  exact ⟨hheld, hpaths, hqueue⟩

/-- `nexthop_unref` returns, and frees the nexthop if nobody uses it. -/
theorem nexthopUnref_spec (hnh : s.nexthops a = some nh)
    (h : NhOk (s.held a) (s.paths a) (a ∈ s.runners) { nh with refcnt := nh.refcnt - 1 } ∨
      NhOk.Unused (s.held a) (s.paths a) (a ∈ s.runners) nh) :
    ∃ o, s.nexthopUnref a = some (s.setNexthop a o) ∧ (s.setNexthop a o).At a := by
  unfold NhState.nexthopUnref
  rw [hnh]
  dsimp only
  rcases h with hok | ⟨hone, hnil, hlookup, hnext, hheld, hpaths, hqueue⟩
  · exact ⟨_, if_pos hok.pos, at_some (Function.update_self ..) hok⟩
  · refine ⟨none, ?_, at_none (Function.update_self ..) hheld hpaths hqueue⟩
    rw [hone, if_neg (by omega), if_neg (by simp [hnil, hlookup]), if_neg (by simp [hnext])]

/-- One nexthop is written. -/
theorem NhInv.setNexthop (hi : NhInv s) {o : Option Nexthop} (hat : (s.setNexthop a o).At a) :
    NhInv (s.setNexthop a o) :=
  hi.change a hi.ptrs hi.runners (fun _ hb => Function.update_of_ne hb _ _) (fun _ _ => rfl)
    (fun _ _ => rfl) (fun _ _ => Iff.rfl) hat

theorem NhInv.hold_ref (hi : NhInv s) (hnh : s.nexthops a = some nh) :
    NhInv ((s.nexthopRef a).hold a) := by
  rw [NhState.nexthopRef, hnh]
  refine hi.change a hi.ptrs hi.runners (fun b hb => Function.update_of_ne hb _ _)
    (fun b hb => Function.update_of_ne hb _ _) (fun _ _ => rfl) (fun _ _ => Iff.rfl) ?_
  refine at_some (Function.update_self ..) ?_
  show NhOk (Function.update s.held a (s.held a + 1) a) _ _ _
  rw [Function.update_self]
  exact (hi.ok hnh).ref

/-- A new nexthop has the reference of its lookup. -/
theorem NhInv.nexthopGet (hi : NhInv s) : NhInv ((s.nexthopGet a).hold a) := by
  unfold NhState.nexthopGet
  cases hnh : s.nexthops a with
  | some nh => exact hi.hold_ref hnh
  | none =>
    have hat := hi.each a
    unfold NhState.At at hat
    rw [hnh] at hat
    obtain ⟨hheld, hpaths, hqueue⟩ := hat
    have hnew : (s.setNexthop a (some {})).nexthopRef a =
        (s.setNexthop a (some {})).setNexthop a (some { refcnt := 1 }) := by
      have hget : (s.setNexthop a (some {})).nexthops a = some {} := Function.update_self ..
      rw [NhState.nexthopRef, hget]
    have hi₁ : NhInv ((s.setNexthop a (some {})).nexthopRef a) := by
      rw [hnew]
      refine hi.change a hi.ptrs hi.runners (fun b hb => ?_) (fun _ _ => rfl) (fun _ _ => rfl)
        (fun _ _ => Iff.rfl) (at_some (Function.update_self ..) ?_)
      · show Function.update (Function.update s.nexthops a _) a _ b = _
        rw [Function.update_of_ne hb, Function.update_of_ne hb]
      · show NhOk (s.held a) (s.paths a) (a ∈ s.runners) _
        rw [hheld, hpaths]
        exact
          ⟨List.nodup_nil, by simp, by simp, rfl, Nat.one_pos, by simp, by simp [hqueue], [], [],
          rfl, rfl, by simp, by simp⟩
    have hget : ((s.setNexthop a (some {})).nexthopRef a).nexthops a = some { refcnt := 1 } := by
      rw [hnew]
      exact Function.update_self ..
    exact hi₁.hold_ref hget

theorem NhInv.unref (hi : NhInv s) (hheld : 0 < s.held a) :
    ∃ s', (s.release a).nexthopUnref a = some s' ∧ NhInv s' := by
  obtain ⟨nh, hnh⟩ := hi.nexthop_of_held hheld
  have hrelease : (s.release a).held a = s.held a - 1 := Function.update_self ..
  have hcount : s.held a + (s.paths a).length = (s.release a).held a + (s.paths a).length + 1 := by
    omega
  have hdrop := (hi.ok hnh).drop _ _ (fun y hy => hy) (fun y hy _ => hy) hcount
  obtain ⟨o, hunref, hat⟩ := nexthopUnref_spec (s := s.release a) hnh hdrop
  refine ⟨_, hunref, hi.change a hi.ptrs hi.runners (fun b hb => Function.update_of_ne hb _ _)
    (fun b hb => Function.update_of_ne hb _ _) (fun _ _ => rfl) (fun _ _ => Iff.rfl) hat⟩

/-- A path is written that has no nexthop or whose nexthop stays as it is. -/
theorem NhInv.modify (hi : NhInv s) {f : NhPrefix → NhPrefix} (hf : Frame f) (hx : x ∈ s.prefixes)
    (hat : ∀ a, x.nexthop = some a → (s.modify x.ptr f).At a) : NhInv (s.modify x.ptr f) where
  ptrs := by
    show ((modifyAt x.ptr f s.prefixes).map NhPrefix.ptr).Nodup
    rw [ptrs_modifyAt hf]
    exact hi.ptrs
  runners := hi.runners
  each b := by
    by_cases hb : x.nexthop = some b
    · exact hat b hb
    · have hold := hi.each b
      unfold NhState.At at hold ⊢
      rw [paths_modify hf, hi.modifyAt_other hx hb]
      exact hold

/-- Linking a prefix to its nexthop keeps references and lists in step. -/
theorem NhInv.nexthopLink (hi : NhInv s) (hx : x ∈ s.prefixes) (hlinked : x.linked = false) :
    NhInv (s.nexthopLink x) := by
  have hmem : ∀ a, x.nexthop = some a → x ∈ s.paths a := fun a ha => mem_paths.mpr ⟨hx, ha⟩
  unfold NhState.nexthopLink
  split_ifs with heval
  · have hf : Frame fun x => { x with nhvalid := false } := fun _ => ⟨rfl, rfl⟩
    refine hi.modify hf hx fun a ha => ?_
    obtain ⟨nh, hnh⟩ := hi.nexthop_of_mem hx ha
    refine at_some hnh ?_
    rw [paths_modify hf]
    exact (hi.ok hnh).unlinked (hi.ptrs_paths a) (hmem a ha) hlinked false
  · cases hnexthop : x.nexthop with
    | none =>
      have hf : Frame fun x => { x with nhvalid := true } := fun _ => ⟨rfl, rfl⟩
      exact hi.modify hf hx fun a ha => absurd (hnexthop.symm.trans ha) (by simp)
    | some a =>
      obtain ⟨nh, hnh⟩ := hi.nexthop_of_mem hx hnexthop
      dsimp only
      rw [hnh]
      have hf : Frame fun x =>
          { x with nhvalid := decide (nh.state = .reach), linked := true } := fun _ => ⟨rfl, rfl⟩
      refine hi.change a ?_ hi.runners (fun b hb => Function.update_of_ne hb _ _) (fun _ _ => rfl)
        (fun b hb => ?_) (fun _ _ => Iff.rfl) (at_some (Function.update_self ..) ?_)
      · show ((modifyAt x.ptr _ s.prefixes).map NhPrefix.ptr).Nodup
        rw [ptrs_modifyAt hf]
        exact hi.ptrs
      · rw [paths_modify hf]
        apply hi.modifyAt_other hx
        rw [hnexthop]
        exact fun h => hb (Option.some.inj h).symm
      · rw [paths_modify hf]
        exact (hi.ok hnh).link (hi.ptrs_paths a) (hmem a hnexthop) hlinked
          (Bool.eq_false_iff.mpr heval)

theorem mem_of_prefix? (h : s.prefix? p = some x) : x ∈ s.prefixes ∧ x.ptr = p :=
  ⟨List.mem_of_find?_eq_some h, by simpa using List.find?_some h⟩

theorem not_mem_of_prefix? (h : s.prefix? p = none) (hy : y ∈ s.prefixes) : y.ptr ≠ p := by
  simpa using List.find?_eq_none.mp h y hy

/-- A path that the list does not have. -/
theorem paths_cons_other {b : BgpdAddr} (h : x.nexthop ≠ some b) :
    { s with prefixes := x :: s.prefixes }.paths b = s.paths b := by
  simp [NhState.paths, h]

/-- A new prefix takes a reference of its nexthop and joins its list. -/
theorem NhInv.prefixLink (hi : NhInv s) (hnew : s.prefix? p = none) {o : Option BgpdAddr}
    (hheld : ∀ a ∈ o, 0 < s.held a) (noevaluate : Bool) :
    NhInv (s.prefixLink p o noevaluate) := by
  let x : NhPrefix := { ptr := p, nexthop := o, noevaluate := noevaluate }
  have hptrs : ((x :: s.prefixes).map NhPrefix.ptr).Nodup := by
    rw [List.map_cons, List.nodup_cons]
    refine ⟨fun hmem => ?_, hi.ptrs⟩
    obtain ⟨y, hy, hptr⟩ := List.mem_map.mp hmem
    exact not_mem_of_prefix? hnew hy hptr
  cases o with
  | none =>
    have hi₁ : NhInv { s with prefixes := x :: s.prefixes } := by
      refine ⟨hptrs, hi.runners, fun b => ?_⟩
      have hold := hi.each b
      have hne : x.nexthop ≠ some b := by simp [x]
      unfold NhState.At at hold ⊢
      rw [paths_cons_other hne]
      exact hold
    exact hi₁.nexthopLink List.mem_cons_self rfl
  | some a =>
    obtain ⟨nh, hnh⟩ := hi.nexthop_of_held (hheld a rfl)
    have href : { s with prefixes := x :: s.prefixes }.nexthopRef a =
        { s with prefixes := x :: s.prefixes }.setNexthop a
          (some { nh with refcnt := nh.refcnt + 1 }) := by
      unfold NhState.nexthopRef
      dsimp only
      rw [hnh]
    -- the nexthop takes a reference for the path
    have hi₁ : NhInv ({ s with prefixes := x :: s.prefixes }.nexthopRef a) := by
      rw [href]
      refine hi.change a hptrs hi.runners (fun b hb => Function.update_of_ne hb _ _)
        (fun _ _ => rfl) (fun b hb => ?_) (fun _ _ => Iff.rfl)
          (at_some (Function.update_self ..) ?_)
      · exact paths_cons_other fun h => hb (Option.some.inj h).symm
      · have hpaths : { s with prefixes := x :: s.prefixes }.paths a = x :: s.paths a := by
          simp [NhState.paths, x]
        show NhOk _ ({ s with prefixes := x :: s.prefixes }.paths a) _ _
        rw [hpaths]
        exact (hi.ok hnh).newPath rfl fun y hy => not_mem_of_prefix? hnew (mem_paths.mp hy).1
    refine hi₁.nexthopLink ?_ rfl
    rw [href]
    exact List.mem_cons_self

/-- The queue of the runner when the cursor was at a path, or not, and is at the next one now. -/
theorem runners_unlink {runners : List BgpdAddr} (hnodup : runners.Nodup) {cur : Option Ptr}
    (hit : Prop) [Decidable hit] (next : Option Ptr) (hqueue : a ∈ runners ↔ cur ≠ none)
    (hcur : hit → cur ≠ none)
    (hnext : ¬hit → next = cur) :
    (if hit ∧ next = none then runners.erase a else runners).Nodup ∧
      (∀ b, b ≠ a → (b ∈ (if hit ∧ next = none then runners.erase a else runners) ↔ b ∈ runners)) ∧
      (a ∈ (if hit ∧ next = none then runners.erase a else runners) ↔ next ≠ none) := by
  split_ifs with hdone
  · refine ⟨hnodup.erase a, fun b hb => List.mem_erase_of_ne hb, ?_⟩
    exact iff_of_false hnodup.not_mem_erase (not_not.mpr hdone.2)
  · refine ⟨hnodup, fun _ _ => Iff.rfl, hqueue.trans ?_⟩
    by_cases hhit : hit
    · exact iff_of_true (hcur hhit) fun hnone => hdone ⟨hhit, hnone⟩
    · rw [hnext hhit]

/-- `nexthop_unlink`, also for a path that is not linked. -/
theorem NhInv.nexthopUnlink (hi : NhInv s) (hx : x ∈ s.prefixes) :
    NhInv (s.nexthopUnlink x) ∧ (s.nexthopUnlink x).held = s.held ∧
      ∃ x' ∈ (s.nexthopUnlink x).prefixes, x'.ptr = x.ptr ∧ x'.nexthop = x.nexthop ∧
        (x.nexthop.isSome → x'.linked = false) := by
  have hf : Frame fun x => { x with nhvalid := false } := fun _ => ⟨rfl, rfl⟩
  have hvalid : { x with nhvalid := false } ∈
      (s.modify x.ptr fun x => { x with nhvalid := false }).prefixes :=
    (mem_modifyAt hi.ptrs hx).mpr (Or.inl rfl)
  unfold NhState.nexthopUnlink
  dsimp only
  cases hnexthop : x.nexthop with
  -- a path without a nexthop has only its flag cleared
  | none =>
    refine ⟨hi.modify hf hx fun a ha => absurd (hnexthop.symm.trans ha) (by simp), rfl, _,
      hvalid, rfl,
      hnexthop, by simp⟩
  | some a =>
    obtain ⟨nh, hnh⟩ := hi.nexthop_of_mem hx hnexthop
    have hmem : x ∈ s.paths a := mem_paths.mpr ⟨hx, hnexthop⟩
    have hget : (s.modify x.ptr fun x => { x with nhvalid := false }).nexthops a = some nh := hnh
    dsimp only
    rw [hget]
    dsimp only
    cases hlinked : x.linked with
    | false =>
      rw [if_pos rfl]
      refine ⟨hi.modify hf hx fun b hb => ?_, rfl, _, hvalid, rfl, hnexthop, fun _ => hlinked⟩
      cases hnexthop.symm.trans hb
      refine at_some hnh ?_
      rw [paths_modify hf]
      exact (hi.ok hnh).unlinked (hi.ptrs_paths a) hmem hlinked false
    -- the path is taken out of the list, and the runner may move on
    | true =>
      rw [if_neg (by simp)]
      have hg : Frame fun x => { x with linked := false } := fun _ => ⟨rfl, rfl⟩
      have hgf : Frame fun x => { x with nhvalid := false, linked := false } := fun _ => ⟨rfl, rfl⟩
      have hwrite : ∀ ps, modifyAt x.ptr (fun x => { x with linked := false })
          (modifyAt x.ptr (fun x => { x with nhvalid := false }) ps) =
          modifyAt x.ptr (fun x => { x with nhvalid := false, linked := false }) ps :=
        fun ps => modifyAt_modifyAt hf
      have hok := hi.ok hnh
      have hrunners := runners_unlink hi.runners (nh.nextPrefix = some x.ptr)
        (if nh.nextPrefix = some x.ptr then NhState.listNext x.ptr nh.prefixH else nh.nextPrefix)
        hok.queue (fun h => by simp [h]) fun h => if_neg h
      refine ⟨hi.change a ?_ hrunners.1 (fun b hb => Function.update_of_ne hb _ _) (fun _ _ => rfl)
        (fun b hb => ?_) hrunners.2.1 (at_some (Function.update_self ..) ?_), rfl, ?_⟩
      · show ((modifyAt x.ptr _ (modifyAt x.ptr _ s.prefixes)).map NhPrefix.ptr).Nodup
        rw [hwrite, ptrs_modifyAt hgf]
        exact hi.ptrs
      · show ((s.modify x.ptr _).setNexthop a _ |>.modify x.ptr _).paths b = _
        rw [paths_modify hg]
        show modifyAt x.ptr _ ((s.modify x.ptr _).paths b) = _
        rw [paths_modify hf, hwrite]
        apply hi.modifyAt_other hx
        rw [hnexthop]
        exact fun h => hb (Option.some.inj h).symm
      · have hpaths : ((s.modify x.ptr fun x => { x with nhvalid := false }).modify x.ptr
            fun x => { x with linked := false }).paths a =
            modifyAt x.ptr (fun x => { x with nhvalid := false, linked := false }) (s.paths a) := by
          rw [paths_modify hg, paths_modify hf, hwrite]
        have hok' := hok.unlink (hi.ptrs_paths a) hmem hlinked hrunners.2.2
        rw [← hpaths] at hok'
        exact hok'
      · refine ⟨{ x with nhvalid := false, linked := false }, ?_, rfl, hnexthop, fun _ => rfl⟩
        show _ ∈ modifyAt x.ptr _ (modifyAt x.ptr _ s.prefixes)
        rw [hwrite]
        exact (mem_modifyAt hi.ptrs hx).mpr (Or.inl rfl)

/-- One path less. -/
theorem length_filter_ptr (hptrs : (ps.map NhPrefix.ptr).Nodup) (hx : x ∈ ps) :
    ps.length = (ps.filter fun y => y.ptr ≠ x.ptr).length + 1 := by
  induction ps with
  | nil => exact absurd hx List.not_mem_nil
  | cons y rest ih =>
    rw [List.map_cons, List.nodup_cons] at hptrs
    rcases List.mem_cons.mp hx with rfl | hx
    · have hrest : rest.filter (fun y => y.ptr ≠ x.ptr) = rest := by
        rw [List.filter_eq_self]
        intro z hz
        simpa using fun h => hptrs.1 (List.mem_map.mpr ⟨z, hz, h⟩)
      rw [List.filter_cons_of_neg (by simp), hrest, List.length_cons]
    · have hne : y.ptr ≠ x.ptr := fun h => hptrs.1 (List.mem_map.mpr ⟨x, hx, h.symm⟩)
      rw [List.filter_cons_of_pos (by simpa using hne), List.length_cons, List.length_cons,
        ← ih hptrs.2 hx]

/-- A path that is not linked any more goes away, and its reference with it. -/
theorem NhInv.prefixUnlink (hi : NhInv s) (hx : x ∈ s.prefixes) :
    ∃ s', s.prefixUnlink x = some s' ∧ NhInv s' := by
  obtain ⟨hi₁, -, x', hx', hptr, hnexthop', hlinked⟩ := hi.nexthopUnlink hx
  unfold NhState.prefixUnlink
  dsimp only
  generalize s.nexthopUnlink x = s₁ at hi₁ hx' ⊢
  have hpaths : ∀ b, { s₁ with prefixes := s₁.prefixes.filter fun y => y.ptr ≠ x.ptr }.paths b =
      (s₁.paths b).filter fun y => y.ptr ≠ x.ptr := fun b => List.filter_comm ..
  have hptrs : ((s₁.prefixes.filter fun y => y.ptr ≠ x.ptr).map NhPrefix.ptr).Nodup :=
    hi₁.ptrs.sublist (List.filter_sublist.map _)
  have hother : ∀ b, x.nexthop ≠ some b →
      (s₁.paths b).filter (fun y => y.ptr ≠ x.ptr) = s₁.paths b := by
    intro b hb
    rw [List.filter_eq_self]
    intro y hy
    rw [decide_eq_true_eq]
    intro heq
    obtain ⟨hy, hnexthop⟩ := mem_paths.mp hy
    rw [eq_of_ptr hi₁.ptrs hy hx' (heq.trans hptr.symm), hnexthop'] at hnexthop
    exact hb hnexthop
  cases hnexthop : x.nexthop with
  -- a path without a nexthop holds no reference
  | none =>
    refine ⟨_, rfl, hptrs, hi₁.runners, fun b => ?_⟩
    have hold := hi₁.each b
    unfold NhState.At at hold ⊢
    rw [hpaths, hother b (by simp [hnexthop])]
    exact hold
  | some a =>
    rw [hnexthop] at hnexthop'
    obtain ⟨nh, hnh⟩ := hi₁.nexthop_of_mem hx' hnexthop'
    have hmem : x' ∈ s₁.paths a := mem_paths.mpr ⟨hx', hnexthop'⟩
    have hcount := length_filter_ptr (hi₁.ptrs_paths a) hmem
    rw [hptr] at hcount
    have hdrop := (hi₁.ok hnh).drop (s₁.held a)
      ((s₁.paths a).filter fun y => y.ptr ≠ x.ptr) (fun y hy => (List.mem_filter.mp hy).1)
        (fun y hy hlink => ?_)
      (by rw [hcount, Nat.add_assoc])
    · rw [← hpaths] at hdrop
      obtain ⟨o, hunref, hat⟩ := nexthopUnref_spec
        (s := { s₁ with prefixes := s₁.prefixes.filter fun y => y.ptr ≠ x.ptr }) hnh hdrop
      refine ⟨_, hunref, hi₁.change a hptrs hi₁.runners (fun b hb => Function.update_of_ne hb _ _)
        (fun _ _ => rfl) (fun b hb => ?_) (fun _ _ => Iff.rfl) hat⟩
      rw [← hother b (by rw [hnexthop]; exact fun h => hb (Option.some.inj h).symm)]
      exact hpaths b
    · refine List.mem_filter.mpr ⟨hy, ?_⟩
      rw [decide_eq_true_eq]
      intro heq
      rw [eq_of_ptr (hi₁.ptrs_paths a) hy hmem (heq.trans hptr.symm),
        hlinked (by simp [hnexthop])] at hlink
      exact Bool.false_ne_true hlink

/-- The queue when a nexthop is taken from it and put at its head. -/
theorem runners_restart {runners : List BgpdAddr} (hnodup : runners.Nodup) (cur next : Option Ptr)
    (hqueue : a ∈ runners ↔ cur ≠ none) {r : List BgpdAddr}
    (hr : r = if cur.isSome then runners.erase a else runners) :
    (if next.isSome then a :: r else r).Nodup ∧
      (∀ b, b ≠ a → (b ∈ (if next.isSome then a :: r else r) ↔ b ∈ runners)) ∧
      (a ∈ (if next.isSome then a :: r else r) ↔ next ≠ none) := by
  have hout : a ∉ r ∧ r.Nodup ∧ ∀ b, b ≠ a → (b ∈ r ↔ b ∈ runners) := by
    subst hr
    split_ifs with hcur
    · exact ⟨hnodup.not_mem_erase, hnodup.erase a, fun b hb => List.mem_erase_of_ne hb⟩
    · refine ⟨mt hqueue.mp ?_, hnodup, fun _ _ => Iff.rfl⟩
      simpa using hcur
  cases next with
  | none => exact ⟨hout.2.1, hout.2.2, iff_of_false hout.1 (by simp)⟩
  | some q =>
    refine ⟨List.nodup_cons.mpr ⟨hout.1, hout.2.1⟩, fun b hb => ?_, by simp⟩
    simp [hb, hout.2.2 b hb]

/-- A nexthop with a new state, for which the runner starts again. -/
theorem NhInv.nexthopRestart (hi : NhInv s) {msg : NhState.KrouteNexthop} {new : Nexthop}
    (hnh : s.nexthops msg.nexthop = some nh) (hs' : s' = s.setNexthop msg.nexthop (some new))
    (hprefixH : new.prefixH = nh.prefixH) (hnext : new.nextPrefix = nh.nextPrefix)
    (hold : new.oldstate = nh.state) (hstate : new.state = .reach ∨ new.state = .unreach)
    (hcnt : new.refcnt = s.held msg.nexthop + (s.paths msg.nexthop).length)
    (hpos : 0 < new.refcnt) : NhInv (s'.nexthopRestart msg new) := by
  subst hs'
  have hok := hi.ok hnh
  have hrunners := runners_restart hi.runners new.nextPrefix new.prefixH.head?
    (hnext ▸ hok.queue) rfl
  refine hi.change msg.nexthop hi.ptrs hrunners.1 (fun b hb => ?_) (fun _ _ => rfl) (fun _ _ => rfl)
    hrunners.2.1 (at_some (Function.update_self ..) ?_)
  · show Function.update (Function.update s.nexthops msg.nexthop _) msg.nexthop _ b = _
    rw [Function.update_of_ne hb, Function.update_of_ne hb]
  · refine hok.restart hprefixH hcnt hpos hstate ?_ ?_ hrunners.2.2
    · dsimp only
      rw [hnext, hold]
    · dsimp only
      rw [hprefixH]

theorem NhOk.prefixH_of_nil (h : NhOk held [] queued nh) : nh.prefixH = [] := by
  apply List.eq_nil_iff_forall_not_mem.mpr
  intro p hp
  obtain ⟨y, hy, -⟩ := (h.mem p).mp hp
  exact List.not_mem_nil hy

/-- The reference of the lookup is dropped when the state of the nexthop is known. -/
theorem unref_lookup (h : NhOk held ps queued nh) (hlookup : nh.state = .lookup)
    {state : NexthopState} (hstate : state ≠ .lookup) :
    (s.setNexthop a (some { nh with oldstate := nh.state, state := state })).nexthopUnref a =
      some (s.setNexthop a (if nh.refcnt = 1 then none
        else some { nh with oldstate := nh.state, state := state, refcnt := nh.refcnt - 1 })) := by
  have hrefs := h.refs
  rw [if_pos hlookup] at hrefs
  have hset : ∀ o o' : Option Nexthop, (s.setNexthop a o).setNexthop a o' = s.setNexthop a o' := by
    intro o o'
    show { s with nexthops := Function.update (Function.update s.nexthops a o) a o' } = _
    rw [Function.update_idem]
    rfl
  unfold NhState.nexthopUnref
  rw [show ∀ o, (s.setNexthop a o).nexthops a = o from fun o => Function.update_self ..]
  dsimp only
  simp only [hset]
  by_cases hone : nh.refcnt = 1
  · have hps : ps = [] := List.eq_nil_of_length_eq_zero (by omega)
    subst hps
    have hempty := h.prefixH_of_nil
    rw [if_neg (by omega), if_neg (by simp [hempty, hstate]),
      if_neg (by simp [h.nextPrefix_of_nil hempty]), if_pos hone]
  · have hpos := h.pos
    rw [if_pos (by omega), if_neg hone]

/-- A message of the parent ends without abort and keeps the invariant. -/
theorem NhInv.nexthopUpdate (hi : NhInv s) (msg : NhState.KrouteNexthop) :
    ∃ s', s.nexthopUpdate msg = some s' ∧ NhInv s' := by
  unfold NhState.nexthopUpdate
  cases hnh : s.nexthops msg.nexthop with
  | none => exact ⟨s, rfl, hi⟩
  | some nh =>
    dsimp only
    have hok := hi.ok hnh
    have hrefs := hok.refs
    have hpos := hok.pos
    have hstate : (if msg.valid then NexthopState.reach else .unreach) = .reach ∨
        (if msg.valid then NexthopState.reach else .unreach) = .unreach := by
      cases msg.valid <;> simp
    generalize (if msg.valid then NexthopState.reach else .unreach) = state at hstate ⊢
    by_cases hlookup : nh.state = .lookup
    -- the answer for a nexthop that was looked up for the first time
    · rw [if_pos hlookup]
      rw [if_pos hlookup] at hrefs
      rw [unref_lookup hok hlookup (by rcases hstate with rfl | rfl <;> simp)]
      split_ifs with hlast
      · have hnil : s.paths msg.nexthop = [] := List.eq_nil_of_length_eq_zero (by omega)
        have hempty : nh.prefixH = [] := (hnil ▸ hok).prefixH_of_nil
        refine ⟨_, rfl, ?_⟩
        have hnone : (s.setNexthop msg.nexthop none).nexthops msg.nexthop = none :=
          Function.update_self ..
        dsimp only
        rw [hnone]
        have hheld : s.held msg.nexthop = 0 := by omega
        have hqueue : msg.nexthop ∉ s.runners := by
          rw [hok.queue, hok.nextPrefix_of_nil hempty]
          simp
        exact hi.setNexthop (at_none hnone hheld hnil hqueue)
      · refine ⟨_, rfl, ?_⟩
        dsimp only
        rw [show ∀ o, (s.setNexthop msg.nexthop o).nexthops msg.nexthop = o from
          fun o => Function.update_self ..]
        refine hi.nexthopRestart hnh rfl rfl rfl rfl hstate ?_ ?_
        · dsimp only
          omega
        · dsimp only
          omega
    -- a nexthop that was known: the runner starts again
    · rw [if_neg hlookup]
      rw [if_neg hlookup] at hrefs
      refine ⟨_, rfl, hi.nexthopRestart hnh rfl rfl rfl rfl hstate ?_ hpos⟩
      exact hrefs

/-- The loop of the runner: each path that it visits knows the state afterwards. -/
theorem runLoop_spec {n : ℕ} {cur cur' : Option Ptr}
    (hptrs : (s.prefixes.map NhPrefix.ptr).Nodup)
    (hok : NhOk (s.held a) (s.paths a) (cur ≠ none) { nh with nextPrefix := cur })
    (h : NhState.runLoop nh n cur s = (s', cur')) :
    s'.nexthops = s.nexthops ∧ s'.runners = s.runners ∧ s'.held = s.held ∧
      (s'.prefixes.map NhPrefix.ptr).Nodup ∧ (∀ b, b ≠ a → s'.paths b = s.paths b) ∧
      NhOk (s.held a) (s'.paths a) (cur' ≠ none) { nh with nextPrefix := cur' } := by
  induction n generalizing s cur with
  | zero =>
    cases h
    exact ⟨rfl, rfl, rfl, hptrs, fun _ _ => rfl, hok⟩
  | succ n ih =>
    cases cur with
    | none =>
      cases h
      exact ⟨rfl, rfl, rfl, hptrs, fun _ _ => rfl, hok⟩
    | some p =>
      rw [NhState.runLoop] at h
      have hf : Frame (NhState.prefixEvaluateNexthop nh.state nh.oldstate) := by
        intro x
        unfold NhState.prefixEvaluateNexthop
        split_ifs <;> exact ⟨rfl, rfl⟩
      have hpaths : ((s.paths a).map NhPrefix.ptr).Nodup :=
        hptrs.sublist (List.filter_sublist.map _)
      obtain ⟨⟨x, hx, rfl⟩, hok'⟩ := hok.advance hpaths Iff.rfl
      obtain ⟨hx, hnexthop⟩ := mem_paths.mp hx
      have hptrs' :
          ((s.modify x.ptr (NhState.prefixEvaluateNexthop nh.state nh.oldstate)).prefixes.map
          NhPrefix.ptr).Nodup := by
        show ((modifyAt x.ptr _ s.prefixes).map NhPrefix.ptr).Nodup
        rw [ptrs_modifyAt hf]
        exact hptrs
      rw [← paths_modify hf] at hok'
      obtain ⟨hn, hr, hh, hp, hothers, hdone⟩ := ih hptrs' hok' h
      -- the paths of other nexthops are not visited
      refine ⟨hn, hr, hh, hp, fun b hb => ?_, hdone⟩
      rw [hothers b hb, paths_modify hf]
      apply modifyAt_of_not_mem
      intro y hy heq
      obtain ⟨hy, hnexthop'⟩ := mem_paths.mp hy
      rw [eq_of_ptr hptrs hy hx heq, hnexthop] at hnexthop'
      exact hb (Option.some.inj hnexthop').symm

/-- One run over the queued nexthops keeps the invariant. -/
theorem NhInv.nexthopRunner (hi : NhInv s) : NhInv s.nexthopRunner := by
  unfold NhState.nexthopRunner
  cases hr : s.runners with
  | nil => exact hi
  | cons a rest =>
    dsimp only
    cases hnh : s.nexthops a with
    | none => exact hi
    | some nh =>
      dsimp only
      have hok := hi.ok hnh
      obtain ⟨s₁, cur', hloop⟩ : ∃ s₁ cur', NhState.runLoop nh NhState.rdeRunnerRounds
          nh.nextPrefix s = (s₁, cur') := ⟨_, _, rfl⟩
      have hstart : NhOk (s.held a) (s.paths a) (nh.nextPrefix ≠ none)
          { nh with nextPrefix := nh.nextPrefix } := { hok with queue := Iff.rfl }
      obtain ⟨hn, -, hh, hp, hothers, hdone⟩ := runLoop_spec hi.ptrs hstart hloop
      rw [hloop]
      have hnodup := hi.runners
      rw [hr, List.nodup_cons] at hnodup
      -- the runner goes on later, or is done with this nexthop
      refine hi.change a hp ?_ (fun b hb => ?_) (fun b _ => congrFun hh b) hothers (fun b hb => ?_)
        (at_some (Function.update_self ..) ?_)
      · dsimp only
        split_ifs
        · exact List.nodup_append.mpr ⟨hnodup.2, List.nodup_singleton a, fun x hx y hy heq => by
            rw [List.mem_singleton.mp hy] at heq
            exact hnodup.1 (heq ▸ hx)⟩
        · exact hnodup.2
      · show Function.update s₁.nexthops a _ b = _
        rw [Function.update_of_ne hb, hn]
      · dsimp only
        rw [hr]
        split_ifs <;> simp [hb]
      · show NhOk (s₁.held a) (s₁.paths a) _ _
        rw [hh]
        refine { hdone with queue := ?_ }
        cases cur' with
        | none => simp [hnodup.1]
        | some q => simp

/-- Every event that the callers may cause returns. -/
theorem NhInv.step (hi : NhInv s) {e : NhEvent} (hcall : Callable s e) :
    ∃ s', nhStep s e = some s' ∧ NhInv s' := by
  cases e with
  | get a => exact ⟨_, rfl, hi.nexthopGet⟩
  | ref a =>
    obtain ⟨nh, hnh⟩ := hi.nexthop_of_held hcall
    exact ⟨_, rfl, hi.hold_ref hnh⟩
  | unref a => exact hi.unref hcall
  | prefixLink p o noevaluate => exact ⟨_, rfl, hi.prefixLink hcall.1 hcall.2 noevaluate⟩
  | prefixUnlink p =>
    obtain ⟨x, hx⟩ := Option.isSome_iff_exists.mp hcall
    rw [nhStep, hx]
    exact hi.prefixUnlink (mem_of_prefix? hx).1
  | link p =>
    obtain ⟨x, hx, hlinked⟩ := hcall
    rw [nhStep, Option.mem_def.mp hx]
    exact ⟨_, rfl, hi.nexthopLink (mem_of_prefix? hx).1 hlinked⟩
  | unlink p =>
    obtain ⟨x, hx⟩ := Option.isSome_iff_exists.mp hcall
    rw [nhStep, hx]
    exact ⟨_, rfl, (hi.nexthopUnlink (mem_of_prefix? hx).1).1⟩
  | update msg => exact hi.nexthopUpdate msg
  | runner => exact ⟨_, rfl, hi.nexthopRunner⟩

theorem NhInv.run {es : List NhEvent} (h : Run nhStep Callable {} es s) : NhInv s := by
  refine h.invariant ?_ NhInv.init
  intro s e s' hi hcall hstep
  obtain ⟨s₁, hstep₁, hi₁⟩ := hi.step hcall
  rw [hstep, Option.some.injEq] at hstep₁
  rwa [hstep₁]

/-- A nexthop is queued iff the runner is under way with it, and then the cursor is one of its
    paths; when it is not, all its paths know its state. No call of `nexthop_unref` ends with
    `fatalx`. -/
theorem nexthop_validity {es : List NhEvent} (h : Run nhStep Callable {} es s) :
    (∀ a nh, s.nexthops a = some nh →
      (a ∈ s.runners ↔ nh.nextPrefix ≠ none) ∧
      (∀ p, nh.nextPrefix = some p →
        ∃ x ∈ s.prefixes, x.ptr = p ∧ x.linked = true ∧ x.nexthop = some a) ∧
      (a ∉ s.runners → ∀ x ∈ s.prefixes, x.linked = true → x.nexthop = some a →
        (x.nhvalid = true ↔ nh.state = .reach))) ∧
      ∀ e, Callable s e → nhStep s e ≠ none := by
  have hi := NhInv.run h
  refine ⟨fun a nh hnh => ?_, fun e hcall => ?_⟩
  · have hok := hi.ok hnh
    obtain ⟨done, todo, hsplit, hhead, hdone, -⟩ := hok.cursor
    refine ⟨hok.queue, fun p hp => ?_, fun hout x hx hlinked hnexthop => ?_⟩
    · have hmem : p ∈ nh.prefixH := by
        rw [hp] at hhead
        rw [hsplit]
        exact List.mem_append_right _ (List.mem_of_head? hhead)
      obtain ⟨x, hx, hptr, hlinked⟩ := (hok.mem p).mp hmem
      obtain ⟨hx, hnexthop⟩ := mem_paths.mp hx
      exact ⟨x, hx, hptr, hlinked, hnexthop⟩
    · have hx := mem_paths.mpr ⟨hx, hnexthop⟩
      have hnone : nh.nextPrefix = none := not_not.mp (mt hok.queue.mpr hout)
      rw [hnone] at hhead
      rw [List.head?_eq_none_iff.mp hhead, List.append_nil] at hsplit
      exact hdone x hx (hsplit ▸ (hok.mem _).mpr ⟨x, hx, rfl, hlinked⟩)
  · obtain ⟨s', hstep, -⟩ := hi.step hcall
    rw [hstep]
    exact Option.some_ne_none s'

/-- A second path is linked and the nexthop goes away before the runner gets to the first. -/
theorem nexthop_validity_sample :
    ∃ s nh, Run nhStep Callable {}
        [.get {}, .prefixLink 0 (some {}) false, .update ⟨{}, true, true, {}, {}, 0⟩,
          .prefixLink 1 (some {}) false, .update ⟨{}, false, true, {}, {}, 0⟩, .runner] s ∧
      s.nexthops {} = some nh ∧ nh.state = .unreach ∧ s.prefixes.length = 2 ∧
      ∀ x ∈ s.prefixes, x.linked = true → x.nexthop = some {} →
        (x.nhvalid = true ↔ nh.state = .reach) := by
  have hrun : ∃ s nh, Run nhStep Callable {}
      [.get {}, .prefixLink 0 (some {}) false, .update ⟨{}, true, true, {}, {}, 0⟩,
        .prefixLink 1 (some {}) false, .update ⟨{}, false, true, {}, {}, 0⟩, .runner] s ∧
      s.nexthops {} = some nh ∧ nh.state = .unreach ∧ s.prefixes.length = 2 ∧ {} ∉ s.runners := by
    have hheld : ∀ {s : NhState}, 0 < s.held {} → ∀ a ∈ some ({} : BgpdAddr), 0 < s.held a := by
      intro s h a ha
      cases ha
      exact h
    refine ⟨_, _, Run.cons trivial rfl (Run.cons ⟨rfl, hheld Nat.one_pos⟩ rfl (Run.cons trivial rfl
      (Run.cons ⟨rfl, hheld Nat.one_pos⟩ rfl (Run.cons trivial rfl (Run.cons trivial rfl
        (Run.nil _)))))), rfl, rfl, rfl, List.not_mem_nil⟩
  obtain ⟨s, nh, hrun, hnh, hstate, hlength, hout⟩ := hrun
  exact ⟨s, nh, hrun, hnh, hstate, hlength, ((nexthop_validity hrun).1 {} nh hnh).2.2 hout⟩

end Bgpd.Rde.Nexthops
