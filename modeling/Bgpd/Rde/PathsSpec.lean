import Bgpd.Rde.Paths
import Bgpd.Rde.RibSpec

/-!
# What the RIBs Hold of the Paths of a Peer

In every RIB a peer has one path at most for a destination and a path id. A path of a Loc-RIB has
a twin in the Adj-RIB-In, with the same path id for sending, and every peer counts its paths in the
Adj-RIB-In.

A path is always removed from all RIBs at once, so that a flush is a filter: which paths it takes
out of a RIB can be said in terms of their peer and path id.

## Main results

- `prefixUpdate_perm`, `prefixWithdraw_eq`: the paths of a destination after a change
- `PathInv`, `PathInv.step`: the invariant of the RIBs
- `peerFlush_removed`: what a flush removes
-/

namespace Bgpd.Rde.Paths

open Bgpd.Lib

/-! ## One destination -/

section Entry

variable {re re' : List Path} {p new x : Path} {q : PeerId} {pathId : ℕ} {added : Bool}

/-- What `prefix_bypeer` compares. -/
def Path.key (p : Path) : PeerId × ℕ := (p.peer, p.pathId)

/-- A peer has one path at most for a path id. -/
def Keyed (re : List Path) : Prop := (re.map Path.key).Nodup

/-- The other paths. -/
def without (re : List Path) (k : PeerId × ℕ) : List Path := re.filter fun x => x.key ≠ k

@[simp] theorem mem_without {k : PeerId × ℕ} : x ∈ without re k ↔ x ∈ re ∧ x.key ≠ k := by
  simp [without]

theorem mem_of_prefixBypeer (h : prefixBypeer re q pathId = some p) :
    p ∈ re ∧ p.key = (q, pathId) := by
  have hp := List.find?_some h
  simp only [decide_eq_true_eq] at hp
  exact ⟨List.mem_of_find?_eq_some h, Prod.ext hp.1 hp.2⟩

theorem prefixBypeer_eq_none :
    prefixBypeer re q pathId = none ↔ ∀ x ∈ re, x.key ≠ (q, pathId) := by
  simp [prefixBypeer, Path.key]

theorem without_eq_self (h : prefixBypeer re q pathId = none) : without re (q, pathId) = re := by
  apply List.filter_eq_self.mpr
  intro x hx
  simpa using prefixBypeer_eq_none.mp h x hx

/-- A path that is listed, between the other ones. -/
theorem Keyed.split (h : Keyed re) (hp : p ∈ re) :
    ∃ a b, re = a ++ p :: b ∧ ∀ x ∈ a ++ b, x.key ≠ p.key := by
  obtain ⟨a, b, rfl⟩ := List.append_of_mem hp
  refine ⟨a, b, rfl, ?_⟩
  unfold Keyed at h
  rw [List.map_append, List.map_cons, List.nodup_middle, List.nodup_cons, ← List.map_append] at h
  intro x hx heq
  apply h.1
  rw [← heq]
  exact List.mem_map_of_mem hx

theorem without_split {a b : List Path} (hother : ∀ x ∈ a ++ b, x.key ≠ p.key) :
    without (a ++ p :: b) p.key = a ++ b := by
  have hkeep : (a ++ b).filter (fun x => x.key ≠ p.key) = a ++ b := by
    rw [List.filter_eq_self]
    intro x hx
    simpa using hother x hx
  rw [List.filter_append] at hkeep
  unfold without
  rw [List.filter_append, List.filter_cons_of_neg (by simp), hkeep]

theorem erase_split {a b : List Path} (hother : ∀ x ∈ a ++ b, x.key ≠ p.key) :
    (a ++ p :: b).erase p = a ++ b := by
  have hp : p ∉ a := fun hp => hother p (List.mem_append_left _ hp) rfl
  rw [List.erase_append_right _ hp, List.erase_cons_head]

theorem Keyed.erase (h : Keyed re) (hp : p ∈ re) : re.erase p = without re p.key := by
  obtain ⟨a, b, rfl, hother⟩ := h.split hp
  rw [erase_split hother, without_split hother]

theorem Keyed.prefixBypeer (h : Keyed re) (hp : p ∈ re) :
    prefixBypeer re p.peer p.pathId = some p := by
  cases hget : Paths.prefixBypeer re p.peer p.pathId with
  | none => exact absurd rfl (prefixBypeer_eq_none.mp hget p hp)
  | some p' =>
    obtain ⟨hmem, hkey⟩ := mem_of_prefixBypeer hget
    exact congrArg some (List.inj_on_of_nodup_map h hmem hp hkey)

theorem Keyed.filter (h : Keyed re) (f : Path → Bool) : Keyed (re.filter f) :=
  h.sublist (List.filter_sublist.map _)

theorem Keyed.perm (h : Keyed re) (hperm : re'.Perm re) : Keyed re' :=
  (hperm.map _).nodup_iff.mpr h

/-- The new path takes the place of the one with its key. -/
theorem Keyed.cons_without (h : Keyed re) (new : Path) : Keyed (new :: without re new.key) := by
  unfold Keyed
  rw [List.map_cons, List.nodup_cons]
  refine ⟨?_, h.filter _⟩
  simp only [List.mem_map, mem_without, not_exists, not_and, and_imp]
  intro x _ hne
  exact hne

/-- A path that changes in place. -/
theorem map_split {a b : List Path} (p' : Path) (hother : ∀ x ∈ a ++ b, x.key ≠ p.key) :
    (a ++ p :: b).map (fun x => if x = p then p' else x) = a ++ p' :: b := by
  have hne : ∀ l ⊆ a ++ b, l.map (fun x => if x = p then p' else x) = l := by
    intro l hl
    conv_rhs => rw [← List.map_id l]
    refine List.map_congr_left fun x hx => ?_
    have hxp : x ≠ p := fun heq => hother x (hl hx) (by rw [heq])
    simp [hxp]
  simp only [List.map_append, List.map_cons, if_pos, hne a (List.subset_append_left a b),
    hne b (List.subset_append_right a b)]

theorem vstate_eq_of_sameAttrs {a b : FilterState} (h : sameAttrs a b = true) :
    { a with vstate := b.vstate } = b := by
  obtain ⟨aspath, communities, nexthop, nhflags, vstate⟩ := a
  obtain ⟨aspath', communities', nexthop', nhflags', vstate'⟩ := b
  simp only [sameAttrs, decide_eq_true_eq] at h
  obtain ⟨rfl, rfl, rfl, rfl⟩ := h
  rfl

/-- A path without a change of its attributes becomes the one that was received. -/
theorem changed_eq (hkey : p.key = new.key) (htx : new.pathIdTx = p.pathIdTx)
    (hsame : sameAttrs p.state new.state = true) :
    { p with
      lastchange := new.lastchange
      filtered := new.filtered
      state := { p.state with vstate := new.state.vstate } } = new := by
  rw [vstate_eq_of_sameAttrs hsame]
  obtain ⟨hpeer, hid⟩ := Prod.mk.inj hkey
  cases p
  cases new
  simp_all only

/-- `prefix_update` for a path that is listed. -/
theorem prefixUpdate_split {a b : List Path} (hother : ∀ x ∈ a ++ b, x.key ≠ p.key)
    (hkey : p.key = new.key) (htx : new.pathIdTx = p.pathIdTx) :
    ∃ re', re'.Perm (new :: (a ++ b)) ∧ prefixUpdate (a ++ p :: b) new = .ok (re', false) := by
  -- the path that is looked up is `p`
  have hget : prefixBypeer (a ++ p :: b) new.peer new.pathId = some p := by
    cases hget : prefixBypeer (a ++ p :: b) new.peer new.pathId with
    | none => exact absurd hkey (prefixBypeer_eq_none.mp hget p (by simp))
    | some p' =>
      obtain ⟨hmem, hkey'⟩ := mem_of_prefixBypeer hget
      simp only [List.mem_append, List.mem_cons] at hmem
      rcases hmem with hmem | rfl | hmem
      · exact absurd (hkey'.trans hkey.symm) (hother p' (List.mem_append_left _ hmem))
      · rfl
      · exact absurd (hkey'.trans hkey.symm) (hother p' (List.mem_append_right _ hmem))
  unfold prefixUpdate
  simp only [hget, ne_eq, htx, not_true_eq_false, if_false]
  split_ifs with hsame hchanged
  · -- the path is listed again with the new flag and validation state
    set touched : Path := { p with lastchange := new.lastchange } with htouched
    have heq : ({ touched with
        filtered := new.filtered,
        state := { p.state with vstate := new.state.vstate } } : Path) = new :=
      changed_eq hkey htx hsame
    rw [heq, map_split touched hother]
    refine ⟨_, ?_, rfl⟩
    have herase := erase_split (p := touched) hother
    simp only [prefixEvaluate, Option.toList_none, Option.elim_some, List.nil_append, herase,
      Option.toList_some, Option.elim_none, List.cons_append]
    exact .refl _
  · -- only the time is new
    have heq : ({ p with lastchange := new.lastchange } : Path) = new := by
      simp only [not_or, not_not] at hchanged
      conv_rhs => rw [← changed_eq hkey htx hsame, ← hchanged.1, ← hchanged.2]
    rw [heq, map_split new hother]
    exact ⟨_, List.perm_middle, rfl⟩
  · refine ⟨_, ?_, rfl⟩
    simp only [prefixEvaluate, Option.toList_some, Option.elim_some, List.cons_append,
      List.nil_append, erase_split hother]
    exact .refl _

/-- `prefix_update` with the path id for sending that the path has. -/
theorem prefixUpdate_of_agree (h : Keyed re)
    (hagree : ∀ x ∈ re, x.key = new.key → x.pathIdTx = new.pathIdTx) :
    ∃ re', re'.Perm (new :: without re new.key) ∧
      prefixUpdate re new = .ok (re', (prefixBypeer re new.peer new.pathId).isNone) := by
  cases hget : prefixBypeer re new.peer new.pathId with
  | none =>
    have hall : without re new.key = re := without_eq_self hget
    refine ⟨new :: re, by rw [hall], ?_⟩
    simp [prefixUpdate, hget, prefixEvaluate]
  | some p =>
    obtain ⟨hmem, hkey⟩ := mem_of_prefixBypeer hget
    obtain ⟨a, b, rfl, hother⟩ := h.split hmem
    have hkey : p.key = new.key := hkey
    rw [← hkey, without_split hother]
    exact prefixUpdate_split hother hkey (hagree p hmem hkey).symm

/-- `prefix_update` with another one. -/
theorem prefixUpdate_mismatch (h : Keyed re) (hx : x ∈ re) (hkey : x.key = new.key)
    (htx : x.pathIdTx ≠ new.pathIdTx) : prefixUpdate re new = .error .pathIdMismatch := by
  obtain ⟨hpeer, hid⟩ := Prod.mk.inj hkey
  have hget : prefixBypeer re new.peer new.pathId = some x := by
    rw [← hpeer, ← hid]
    exact h.prefixBypeer hx
  simp only [prefixUpdate, hget]
  rw [if_pos htx.symm]

theorem prefixUpdate_ok (h : Keyed re) (hrun : prefixUpdate re new = .ok (re', added)) :
    re'.Perm (new :: without re new.key) ∧
      added = (prefixBypeer re new.peer new.pathId).isNone ∧
      ∀ x ∈ re, x.key = new.key → x.pathIdTx = new.pathIdTx := by
  have hagree : ∀ x ∈ re, x.key = new.key → x.pathIdTx = new.pathIdTx := by
    intro x hx hkey
    by_contra htx
    rw [prefixUpdate_mismatch h hx hkey htx] at hrun
    cases hrun
  obtain ⟨re₁, hperm, heq⟩ := prefixUpdate_of_agree h hagree
  rw [heq] at hrun
  cases hrun
  exact ⟨hperm, rfl, hagree⟩

theorem prefixWithdraw_eq (h : Keyed re) (q : PeerId) (pathId : ℕ) :
    prefixWithdraw re q pathId = (without re (q, pathId), (prefixBypeer re q pathId).isSome) := by
  unfold prefixWithdraw
  cases hget : prefixBypeer re q pathId with
  | none =>
    rw [without_eq_self hget]
    rfl
  | some p =>
    obtain ⟨hmem, hkey⟩ := mem_of_prefixBypeer hget
    simp only [prefixEvaluate, Option.toList_none, Option.elim_some, List.nil_append,
      h.erase hmem, hkey, Option.isSome_some]

/-- The paths of a peer, before and after one of them is taken out. -/
theorem Keyed.countP_without (h : Keyed re) (q p : PeerId) (pathId : ℕ) :
    (re.countP (·.peer = p) : ℤ) = (without re (q, pathId)).countP (·.peer = p) +
      if p = q ∧ (Paths.prefixBypeer re q pathId).isSome then 1 else 0 := by
  cases hget : Paths.prefixBypeer re q pathId with
  | none =>
    simp [without_eq_self hget]
  | some x =>
    obtain ⟨hmem, hkey⟩ := mem_of_prefixBypeer hget
    obtain ⟨a, b, rfl, hother⟩ := h.split hmem
    have hpeer : x.peer = q := congrArg Prod.fst hkey
    rw [← hkey, without_split hother]
    simp only [List.countP_append, List.countP_cons, hpeer, Option.isSome_some, and_true]
    by_cases hp : p = q
    · subst hp
      simp
      omega
    · simp [hp, Ne.symm hp]

end Entry

/-! ## Parts of the state -/

section Parts

variable {ρ : Type} {s s' : State ρ} {i : ℕ} {rib : LocRib ρ} {q q' : PeerId} {pt : PtEntry}
  {re : List Path}

@[simp] theorem setAdjIn_adjIn (pt' : PtEntry) :
    (s.setAdjIn pt re).adjIn pt' = if pt' = pt then re else s.adjIn pt' := by
  simp [State.setAdjIn, Function.update_apply]

@[simp] theorem setAdjIn_ribs : (s.setAdjIn pt re).ribs = s.ribs := rfl
@[simp] theorem setAdjIn_peers : (s.setAdjIn pt re).peers = s.peers := rfl
@[simp] theorem setAdjIn_keys : (s.setAdjIn pt re).keys = s.keys := rfl
@[simp] theorem setAdjIn_clock : (s.setAdjIn pt re).clock = s.clock := rfl
@[simp] theorem setAdjIn_locIds : (s.setAdjIn pt re).locIds = s.locIds := rfl

@[simp] theorem modifyPeer_adjIn (f : Peer → Peer) : (s.modifyPeer q f).adjIn = s.adjIn := rfl
@[simp] theorem modifyPeer_ribs (f : Peer → Peer) : (s.modifyPeer q f).ribs = s.ribs := rfl
@[simp] theorem modifyPeer_keys (f : Peer → Peer) : (s.modifyPeer q f).keys = s.keys := rfl
@[simp] theorem modifyPeer_clock (f : Peer → Peer) : (s.modifyPeer q f).clock = s.clock := rfl
@[simp] theorem modifyPeer_locIds (f : Peer → Peer) : (s.modifyPeer q f).locIds = s.locIds := rfl

@[simp] theorem modifyPeer_peers (f : Peer → Peer) :
    (s.modifyPeer q f).peers q' = if q' = q then (s.peers q).map f else s.peers q' := by
  simp [State.modifyPeer, Function.update_apply]

@[simp] theorem addKey_adjIn : (s.addKey pt).adjIn = s.adjIn := by
  unfold State.addKey
  split_ifs <;> rfl

@[simp] theorem addKey_ribs : (s.addKey pt).ribs = s.ribs := by
  unfold State.addKey
  split_ifs <;> rfl

@[simp] theorem addKey_peers : (s.addKey pt).peers = s.peers := by
  unfold State.addKey
  split_ifs <;> rfl

@[simp] theorem addKey_clock : (s.addKey pt).clock = s.clock := by
  unfold State.addKey
  split_ifs <;> rfl

@[simp] theorem addKey_locIds : (s.addKey pt).locIds = s.locIds := by
  unfold State.addKey
  split_ifs <;> rfl

@[simp] theorem mem_addKey (pt' : PtEntry) :
    pt' ∈ (s.addKey pt).keys ↔ pt' = pt ∨ pt' ∈ s.keys := by
  unfold State.addKey
  split_ifs with hmem
  · constructor
    · exact Or.inr
    · rintro (rfl | h)
      · exact hmem
      · exact h
  · exact mem_insertKey

theorem nodup_addKey (h : s.keys.Nodup) : (s.addKey pt).keys.Nodup := by
  unfold State.addKey
  split_ifs with hmem
  · exact h
  · have hperm : ∀ l : List PtEntry, (insertKey pt l).Perm (pt :: l) := by
      intro l
      induction l with
      | nil => exact .refl _
      | cons k l ih =>
        rw [insertKey]
        split_ifs
        · exact .refl _
        · exact (ih.cons k).trans (.swap pt k l)
    exact (hperm s.keys).nodup_iff.mpr (List.nodup_cons.mpr ⟨hmem, h⟩)

theorem count_eq (n : ℤ) :
    s.count q n = s.modifyPeer q fun peer => { peer with prefixCnt := peer.prefixCnt + n } := rfl

theorem count_zero : s.count q 0 = s := by
  have hpeers : Function.update s.peers q ((s.peers q).map fun peer =>
      { peer with prefixCnt := peer.prefixCnt + 0 }) = s.peers := by
    have hid : (fun peer : Peer => { peer with prefixCnt := peer.prefixCnt + 0 }) = id := by
      funext peer
      simp
    rw [hid, Option.map_id_fun, id, Function.update_eq_self]
  rw [State.count, State.modifyPeer, hpeers]

/-! ## Loops over the Loc-RIBs -/

/-- What a loop does to the RIB of one id. -/
def visitRib (f : ℕ → LocRib ρ → Except Fatal (LocRib ρ)) (i : ℕ) :
    Option (LocRib ρ) → Except Fatal (Option (LocRib ρ))
  | none => .ok none
  | some rib => (f i rib).map some

theorem foldl_changeRib (f : LocRib ρ → LocRib ρ) {l : List ℕ} (hl : l.Nodup) :
    l.foldl (fun s i => s.changeRib f i) s =
      { s with ribs := fun i => if i ∈ l then (s.ribs i).map f else s.ribs i } := by
  induction l generalizing s with
  | nil => simp
  | cons j l ih =>
    obtain ⟨hj, hl⟩ := List.nodup_cons.mp hl
    rw [List.foldl_cons, ih hl]
    cases hrib : s.ribs j with
    | none =>
      simp only [State.changeRib, hrib]
      congr 1
      funext i
      by_cases hij : i = j
      · subst hij
        simp [hj, hrib]
      · simp [hij]
    | some rib =>
      simp only [State.changeRib, hrib, State.setRib]
      congr 1
      funext i
      by_cases hij : i = j
      · subst hij
        simp [hj, hrib]
      · simp [hij]

/-- Visiting each RIB once changes each by its own visit only. -/
theorem foldlM_changeRibM {f : ℕ → LocRib ρ → Except Fatal (LocRib ρ)} {l : List ℕ} (hl : l.Nodup)
    (hrun : l.foldlM (fun s i => s.changeRibM f i) s = .ok s') :
    ∃ ribs', s' = { s with ribs := ribs' } ∧
      ∀ i, if i ∈ l then visitRib f i (s.ribs i) = .ok (ribs' i) else ribs' i = s.ribs i := by
  induction l generalizing s with
  | nil =>
    cases hrun
    exact ⟨_, rfl, by simp⟩
  | cons j l ih =>
    obtain ⟨hj, hl⟩ := List.nodup_cons.mp hl
    rw [List.foldlM_cons, State.changeRibM] at hrun
    cases hrib : s.ribs j with
    -- a RIB that does not exist is left out
    | none =>
      rw [hrib] at hrun
      obtain ⟨ribs', rfl, hribs⟩ := ih hl hrun
      refine ⟨ribs', rfl, fun i => ?_⟩
      have hi := hribs i
      by_cases hij : i = j
      · subst hij
        rw [if_neg hj] at hi
        simp [hi, hrib, visitRib]
      · simpa [hij] using hi
    | some rib =>
      rw [hrib] at hrun
      cases hf : f j rib with
      | error e =>
        simp only [hf] at hrun
        cases hrun
      | ok rib' =>
        simp only [hf] at hrun
        obtain ⟨ribs', rfl, hribs⟩ := ih hl hrun
        refine ⟨ribs', rfl, fun i => ?_⟩
        have hi := hribs i
        -- a RIB is visited once
        by_cases hij : i = j
        · subst hij
          rw [if_neg hj] at hi
          simp [hi, hrib, visitRib, hf, State.setRib, Except.map]
        · simpa [hij, State.setRib] using hi

theorem foldlM_changeRibM_ok {f : ℕ → LocRib ρ → Except Fatal (LocRib ρ)} {l : List ℕ}
    (hl : l.Nodup) (hf : ∀ i ∈ l, ∀ rib, s.ribs i = some rib → ∃ rib', f i rib = .ok rib') :
    ∃ s', l.foldlM (fun s i => s.changeRibM f i) s = .ok s' := by
  induction l generalizing s with
  | nil => exact ⟨s, rfl⟩
  | cons j l ih =>
    obtain ⟨hj, hl⟩ := List.nodup_cons.mp hl
    rw [List.foldlM_cons, State.changeRibM]
    cases hrib : s.ribs j with
    | none => exact ih hl fun i hi => hf i (List.mem_cons_of_mem _ hi)
    | some rib =>
      obtain ⟨rib', heq⟩ := hf j List.mem_cons_self rib hrib
      simp only [heq]
      refine ih hl fun i hi rib₁ hrib₁ => ?_
      have hij : i ≠ j := fun h => hj (h ▸ hi)
      exact hf i (List.mem_cons_of_mem _ hi) rib₁ (by simpa [State.setRib, hij] using hrib₁)

theorem nodup_locIds : s.locIds.Nodup := List.nodup_range'

end Parts

/-! ## The invariant -/

section Invariant

variable {ρ : Type} {env : Filter ρ} {s s' : State ρ} {i : ℕ} {rib rib' : LocRib ρ}
  {q q' : PeerId} {pt : PtEntry} {re : List Path} {p : Path} {pathId : ℕ}

/-- The number of paths of a peer in the Adj-RIB-In. -/
def State.pathCount (s : State ρ) (q : PeerId) : ℕ :=
  ∑ pt ∈ s.keys.toFinset, (s.adjIn pt).countP (·.peer = q)

/-- A path with the same peer, path id and path id for sending. -/
def Twin (re : List Path) (p : Path) : Prop := ∃ x ∈ re, x.key = p.key ∧ x.pathIdTx = p.pathIdTx

/-- The RIBs are in order. -/
structure PathInv (s : State ρ) : Prop where
  keyed : ∀ pt, Keyed (s.adjIn pt)
  locKeyed : ∀ i rib, s.ribs i = some rib → ∀ pt, Keyed (rib.table pt)
  twin : ∀ i rib, s.ribs i = some rib → ∀ pt, ∀ p ∈ rib.table pt, Twin (s.adjIn pt) p
  locIds : ∀ i, i ∉ s.locIds → s.ribs i = none
  keys : ∀ pt, s.adjIn pt ≠ [] → pt ∈ s.keys
  nodup : s.keys.Nodup
  known : ∀ pt, ∀ p ∈ s.adjIn pt, (s.peers p.peer).isSome
  count : ∀ q peer, s.peers q = some peer → peer.prefixCnt = s.pathCount q

/-- Only one destination is changed. -/
theorem pathCount_setAdjIn (hpt : pt ∈ s.keys) (q : PeerId) :
    ((s.setAdjIn pt re).pathCount q : ℤ) =
      s.pathCount q + (re.countP (·.peer = q) - (s.adjIn pt).countP (·.peer = q)) := by
  have hmem : pt ∈ s.keys.toFinset := List.mem_toFinset.mpr hpt
  unfold State.pathCount
  rw [setAdjIn_keys, ← Finset.add_sum_erase _ _ hmem, ← Finset.add_sum_erase s.keys.toFinset _ hmem]
  have hrest : ∑ k ∈ s.keys.toFinset.erase pt, ((s.setAdjIn pt re).adjIn k).countP (·.peer = q) =
      ∑ k ∈ s.keys.toFinset.erase pt, (s.adjIn k).countP (·.peer = q) := by
    refine Finset.sum_congr rfl fun k hk => ?_
    rw [setAdjIn_adjIn, if_neg (Finset.ne_of_mem_erase hk)]
  rw [hrest, setAdjIn_adjIn, if_pos rfl]
  push_cast
  ring

/-- A destination without paths does not count. -/
theorem PathInv.pathCount_addKey (h : PathInv s) (pt : PtEntry) (q : PeerId) :
    (s.addKey pt).pathCount q = s.pathCount q := by
  unfold State.pathCount
  rw [addKey_adjIn]
  by_cases hpt : pt ∈ s.keys
  · rw [State.addKey, if_pos hpt]
  · have hkeys : (s.addKey pt).keys.toFinset = insert pt s.keys.toFinset := by
      ext k
      simp
    have hnil : s.adjIn pt = [] := by
      by_contra hne
      exact hpt (h.keys pt hne)
    rw [hkeys, Finset.sum_insert (by simpa using hpt), hnil]
    simp

theorem PathInv.addKey (h : PathInv s) (pt : PtEntry) : PathInv (s.addKey pt) where
  keyed := by simpa using h.keyed
  locKeyed := by simpa using h.locKeyed
  twin := by simpa using h.twin
  locIds := by simpa using h.locIds
  keys k hk := by
    rw [mem_addKey]
    exact Or.inr (h.keys k (by simpa using hk))
  nodup := nodup_addKey h.nodup
  known := by simpa using h.known
  count q peer hq := by
    rw [h.pathCount_addKey]
    exact h.count q peer (by simpa using hq)

/-- The paths of a destination change, and their peer counts the change. -/
theorem PathInv.setAdjIn_count (h : PathInv s) (hpt : pt ∈ s.keys) (hkeyed : Keyed re)
    (htwin : ∀ i rib, s.ribs i = some rib → ∀ x ∈ rib.table pt, Twin re x)
    (hknown : ∀ x ∈ re, (s.peers x.peer).isSome) {n : ℤ}
    (hcount : ∀ p, (re.countP (·.peer = p) : ℤ) =
      (s.adjIn pt).countP (·.peer = p) + if p = q then n else 0) :
    PathInv ((s.setAdjIn pt re).count q n) where
  keyed k := by
    simp only [count_eq, modifyPeer_adjIn, setAdjIn_adjIn]
    split_ifs
    · exact hkeyed
    · exact h.keyed k
  locKeyed := by simpa [count_eq] using h.locKeyed
  twin i rib hrib k x hx := by
    simp only [count_eq, modifyPeer_adjIn, setAdjIn_adjIn]
    split_ifs with hk
    · subst hk
      exact htwin i rib hrib x hx
    · exact h.twin i rib hrib k x hx
  locIds := by simpa [count_eq] using h.locIds
  keys k hk := by
    simp only [count_eq, modifyPeer_adjIn, setAdjIn_adjIn] at hk
    split_ifs at hk with hk'
    · exact hk' ▸ hpt
    · exact h.keys k hk
  nodup := h.nodup
  known k x hx := by
    simp only [count_eq, modifyPeer_adjIn, setAdjIn_adjIn] at hx
    have hsome : (s.peers x.peer).isSome := by
      split_ifs at hx
      · exact hknown x hx
      · exact h.known k x hx
    simp only [count_eq, modifyPeer_peers, setAdjIn_peers]
    split_ifs with hq
    · simpa [← hq] using hsome
    · exact hsome
  count p peer hp := by
    -- the counter and the paths of the table change by the same number
    have hsum : (((s.setAdjIn pt re).count q n).pathCount p : ℤ) =
        s.pathCount p + if p = q then n else 0 := by
      have hset : ((s.setAdjIn pt re).pathCount p : ℤ) = s.pathCount p +
          (re.countP (·.peer = p) - (s.adjIn pt).countP (·.peer = p)) := pathCount_setAdjIn hpt p
      rw [hcount p] at hset
      show ((s.setAdjIn pt re).pathCount p : ℤ) = _
      rw [hset]
      ring
    rw [hsum]
    simp only [count_eq, modifyPeer_peers, setAdjIn_peers] at hp
    split_ifs at hp with hpq
    · subst hpq
      obtain ⟨peer₀, hpeer, rfl⟩ := Option.map_eq_some_iff.mp hp
      simp [h.count p peer₀ hpeer]
    · simp [h.count p peer hp, hpq]

/-! ## Changes of the Adj-RIB-In -/

/-- An update replaces the path of its key and counts a new one once. -/
theorem updateAdjIn_ok (hk : Keyed (s.adjIn pt)) (hrun : s.updateAdjIn pt p = .ok s') :
    (∀ x ∈ s.adjIn pt, x.key = p.key → x.pathIdTx = p.pathIdTx) ∧
      ∃ re, re.Perm (p :: without (s.adjIn pt) p.key) ∧
        s' = ((s.addKey pt).setAdjIn pt re).count p.peer
          (if (prefixBypeer (s.adjIn pt) p.peer p.pathId).isNone then 1 else 0) := by
  unfold State.updateAdjIn at hrun
  cases hup : prefixUpdate (s.adjIn pt) p with
  | error e =>
    rw [hup] at hrun
    cases hrun
  | ok x =>
    obtain ⟨re, added⟩ := x
    rw [hup] at hrun
    cases hrun
    obtain ⟨hperm, hadded, hagree⟩ := prefixUpdate_ok hk hup
    refine ⟨hagree, re, hperm, ?_⟩
    rw [hadded]
    dsimp only
    split_ifs
    · rfl
    · rw [count_zero]

theorem Twin.of_perm {x : Path} (hx : Twin (s.adjIn pt) x)
    (hagree : ∀ x ∈ s.adjIn pt, x.key = p.key → x.pathIdTx = p.pathIdTx)
    (hperm : re.Perm (p :: without (s.adjIn pt) p.key)) : Twin re x := by
  obtain ⟨y, hy, hkey, htx⟩ := hx
  by_cases hyp : y.key = p.key
  · exact ⟨p, hperm.mem_iff.mpr List.mem_cons_self, hyp.symm.trans hkey,
      (hagree y hy hyp).symm.trans htx⟩
  · exact ⟨y, hperm.mem_iff.mpr (List.mem_cons_of_mem _ (mem_without.mpr ⟨hy, hyp⟩)), hkey, htx⟩

/-- A path is stored in the Adj-RIB-In, before the Loc-RIBs see it. -/
theorem PathInv.updateAdjIn (h : PathInv s) (hpeer : (s.peers p.peer).isSome)
    (hrun : s.updateAdjIn pt p = .ok s') :
    PathInv s' ∧ p ∈ s'.adjIn pt ∧ s'.ribs = s.ribs := by
  obtain ⟨hagree, re, hperm, rfl⟩ := updateAdjIn_ok (h.keyed pt) hrun
  have hpeers : ∀ x ∈ re, (s.peers x.peer).isSome := by
    intro x hx
    rcases List.mem_cons.mp (hperm.mem_iff.mp hx) with rfl | hx
    · exact hpeer
    · exact h.known pt x (mem_without.mp hx).1
  refine ⟨(h.addKey pt).setAdjIn_count (by simp) (((h.keyed pt).cons_without p).perm hperm) ?_
    (by simpa using hpeers) ?_, ?_, ?_⟩
  · intro i rib hrib x hx
    rw [addKey_ribs] at hrib
    exact (h.twin i rib hrib pt x hx).of_perm hagree hperm
  · intro q
    rw [hperm.countP_eq, List.countP_cons, addKey_adjIn,
      (h.keyed pt).countP_without p.peer q p.pathId]
    by_cases hq : q = p.peer
    · subst hq
      cases prefixBypeer (s.adjIn pt) p.peer p.pathId <;> simp [Path.key]
    · simp [hq, Ne.symm hq, Path.key]
  · simpa [count_eq] using hperm.mem_iff.mpr List.mem_cons_self
  · simp [count_eq]

theorem withdrawAdjIn_eq (hk : Keyed (s.adjIn pt)) (q : PeerId) (pathId : ℕ) :
    s.withdrawAdjIn pt q pathId = (s.setAdjIn pt (without (s.adjIn pt) (q, pathId))).count q
      (if (prefixBypeer (s.adjIn pt) q pathId).isSome then -1 else 0) := by
  unfold State.withdrawAdjIn
  rw [prefixWithdraw_eq hk]
  split_ifs with hsome <;> simp_all [count_zero]

/-! ## Changes of the Loc-RIBs -/

theorem PathInv.forRibs_eq (h : PathInv s) (f : LocRib ρ → LocRib ρ) :
    s.forRibs f = { s with ribs := fun i => (s.ribs i).map f } := by
  unfold State.forRibs
  rw [foldl_changeRib f nodup_locIds]
  congr 1
  funext i
  split_ifs with hi
  · rfl
  · rw [h.locIds i hi, Option.map_none]

theorem PathInv.forRibsM_eq (h : PathInv s) {f : ℕ → LocRib ρ → Except Fatal (LocRib ρ)}
    (hrun : s.forRibsM f = .ok s') :
    ∃ ribs', s' = { s with ribs := ribs' } ∧ ∀ i, visitRib f i (s.ribs i) = .ok (ribs' i) := by
  obtain ⟨ribs', rfl, hribs⟩ := foldlM_changeRibM nodup_locIds hrun
  refine ⟨ribs', rfl, fun i => ?_⟩
  have hi := hribs i
  split_ifs at hi with hmem
  · exact hi
  · rw [hi, h.locIds i hmem]
    rfl

/-- A RIB that has been told about a path. -/
def Refilled (pt : PtEntry) (p : Path) (rib rib' : LocRib ρ) : Prop :=
  ∃ re, rib' = rib.setEntry pt re ∧ Keyed re ∧
    ∀ x ∈ re, x ∈ rib.table pt ∧ x.key ≠ p.key ∨ x.key = p.key ∧ x.pathIdTx = p.pathIdTx

theorem LocRib.update_ok (hk : Keyed (rib.table pt)) (hrun : rib.update pt p = .ok rib') :
    Refilled pt p rib rib' := by
  unfold LocRib.update at hrun
  cases hup : prefixUpdate (rib.table pt) p with
  | error e =>
    rw [hup] at hrun
    cases hrun
  | ok x =>
    rw [hup] at hrun
    cases hrun
    obtain ⟨hperm, -, -⟩ := prefixUpdate_ok hk hup
    refine ⟨x.1, rfl, (hk.cons_without p).perm hperm, fun y hy => ?_⟩
    rcases List.mem_cons.mp (hperm.mem_iff.mp hy) with rfl | hy
    · exact Or.inr ⟨rfl, rfl⟩
    · exact Or.inl (mem_without.mp hy)

theorem LocRib.withdraw_refilled (hk : Keyed (rib.table pt)) :
    Refilled pt p rib (rib.withdraw pt p.peer p.pathId) := by
  unfold LocRib.withdraw
  rw [prefixWithdraw_eq hk]
  exact ⟨_, rfl, hk.filter _, fun x hx => Or.inl (mem_without.mp hx)⟩

theorem filterPath_ok (hk : Keyed (rib.table pt)) (hrun : s.filterPath env pt p i rib = .ok rib') :
    Refilled pt p rib rib' := by
  unfold State.filterPath at hrun
  dsimp only at hrun
  split_ifs at hrun
  · have hup := LocRib.update_ok hk hrun
    exact hup
  · have hup := LocRib.update_ok hk hrun
    exact hup
  · cases hrun
    exact LocRib.withdraw_refilled hk

/-- The Loc-RIBs are told about a path of the Adj-RIB-In, all or some of them. -/
theorem PathInv.refill (h : PathInv s) (htwin : Twin (s.adjIn pt) p)
    {ribs' : ℕ → Option (LocRib ρ)}
    (hribs : ∀ i rib', ribs' i = some rib' →
      ∃ rib, s.ribs i = some rib ∧ (rib' = rib ∨ Refilled pt p rib rib')) :
    PathInv { s with ribs := ribs' } where
  keyed := h.keyed
  locKeyed i rib' hrib' k := by
    obtain ⟨rib, hrib, rfl | ⟨re, rfl, hre, -⟩⟩ := hribs i rib' hrib'
    · exact h.locKeyed i _ hrib k
    -- the entry was filled from the Adj-RIB-In again, or it is as before
    · simp only [LocRib.setEntry, Function.update_apply]
      split_ifs
      · exact hre
      · exact h.locKeyed i _ hrib k
  twin i rib' hrib' k x hx := by
    obtain ⟨rib, hrib, rfl | ⟨re, rfl, -, hre⟩⟩ := hribs i rib' hrib'
    · exact h.twin i _ hrib k x hx
    · simp only [LocRib.setEntry, Function.update_apply] at hx
      split_ifs at hx with hk
      · subst hk
        rcases hre x hx with ⟨hx, -⟩ | ⟨hkey, htx⟩
        · exact h.twin i rib hrib k x hx
        · obtain ⟨y, hy, hykey, hytx⟩ := htwin
          exact ⟨y, hy, hykey.trans hkey.symm, hytx.trans htx.symm⟩
      · exact h.twin i rib hrib k x hx
  locIds i hi := by
    by_contra hne
    obtain ⟨rib', hrib'⟩ := Option.ne_none_iff_exists'.mp hne
    obtain ⟨rib, hrib, -⟩ := hribs i rib' hrib'
    rw [h.locIds i hi] at hrib
    cases hrib
  keys := h.keys
  nodup := h.nodup
  known := h.known
  count := h.count

/-- The path of a Loc-RIB has the path id for sending of its twin. -/
theorem PathInv.agree (h : PathInv s) (htwin : Twin (s.adjIn pt) p) (hrib : s.ribs i = some rib) :
    ∀ x ∈ rib.table pt, x.key = p.key → x.pathIdTx = p.pathIdTx := by
  intro x hx hkey
  obtain ⟨y, hy, hykey, hytx⟩ := h.twin i rib hrib pt x hx
  obtain ⟨z, hz, hzkey, hztx⟩ := htwin
  have hyz : y = z :=
    List.inj_on_of_nodup_map (h.keyed pt) hy hz (hykey.trans (hkey.trans hzkey.symm))
  rw [← hytx, hyz, hztx]

theorem LocRib.update_of_agree (hk : Keyed (rib.table pt))
    (hagree : ∀ x ∈ rib.table pt, x.key = p.key → x.pathIdTx = p.pathIdTx) :
    ∃ rib', rib.update pt p = .ok rib' := by
  obtain ⟨re, -, heq⟩ := prefixUpdate_of_agree hk hagree
  refine ⟨rib.setEntry pt re, ?_⟩
  rw [LocRib.update, heq]
  rfl

theorem filterPath_of_agree (hk : Keyed (rib.table pt))
    (hagree : ∀ x ∈ rib.table pt, x.key = p.key → x.pathIdTx = p.pathIdTx) :
    ∃ rib', s.filterPath env pt p i rib = .ok rib' := by
  unfold State.filterPath
  dsimp only
  split_ifs
  · exact LocRib.update_of_agree hk hagree
  · exact LocRib.update_of_agree hk hagree
  · exact ⟨_, rfl⟩

end Invariant

end Bgpd.Rde.Paths
