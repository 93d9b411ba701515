import Bgpd.Rde.PathsSpec

/-!
# Flushing a Peer

`peer_flush` walks the Adj-RIB-In and deletes what it walks over, together with the paths of the
Loc-RIBs it finds with the same peer and path id. What it removes is described by `Removed`: a
set of keys is taken out of all RIBs. A path is old if its time of the last change is, which is the
time of the last update for it in the run.

## Main results

- `peerFlush_removed`: what a flush removes
- `PathInv.step`: the invariant of the RIBs
- `lastchange_eq`: the time of a path is that of the last update for it
- `peerFlush_exact`: flushes are exact
-/

namespace Bgpd.Rde.Paths

open Bgpd.Lib

variable {ρ : Type} {env : Filter ρ} {s s₁ s' : State ρ} {i : ℕ} {rib rib' : LocRib ρ}
  {q q' : PeerId} {pt : PtEntry} {re : List Path} {p : Path} {pathId : ℕ} {aid : Option Aid}
  {staletime : Option ℕ}

/-! ## Removals -/

/-- The parts of a peer that a removal of paths leaves alone. -/
def Peer.uncounted (peer : Peer) : Peer :=
  { peer with prefixCnt := 0, staletime := fun _ => none }

/-- The paths with these keys are gone from all RIBs, and all others are still there. -/
structure Removed (gone : PtEntry → PeerId × ℕ → Bool) (s s' : State ρ) : Prop where
  adjIn : ∀ pt, s'.adjIn pt = (s.adjIn pt).filter fun p => !gone pt p.key
  ribs : ∀ i, s'.ribs i = (s.ribs i).map fun rib =>
    { rib with table := fun pt => (rib.table pt).filter fun p => !gone pt p.key }
  peers : ∀ q, (s'.peers q).map Peer.uncounted = (s.peers q).map Peer.uncounted
  table : s'.peertable = s.peertable
  clock : s'.clock = s.clock
  keys : s'.keys = s.keys

theorem Removed.refl (s : State ρ) : Removed (fun _ _ => false) s s where
  adjIn pt := by simp
  ribs i := by simp
  peers _ := rfl
  table := rfl
  clock := rfl
  keys := rfl

/-- Two removals in a row remove what either removes. -/
theorem Removed.trans {gone gone' : PtEntry → PeerId × ℕ → Bool} (h : Removed gone s s₁)
    (h' : Removed gone' s₁ s') : Removed (fun pt k => gone pt k || gone' pt k) s s' where
  adjIn pt := by
    rw [h'.adjIn, h.adjIn, List.filter_filter]
    congr 1
    funext p
    rw [Bool.not_or, Bool.and_comm]
  ribs i := by
    rw [h'.ribs, h.ribs, Option.map_map]
    congr 1
    funext rib
    simp only [Function.comp_apply, List.filter_filter]
    congr 1
    funext pt
    congr 1
    funext p
    rw [Bool.not_or, Bool.and_comm]
  peers q := (h'.peers q).trans (h.peers q)
  table := h'.table.trans h.table
  clock := h'.clock.trans h.clock
  keys := h'.keys.trans h.keys

theorem Removed.congr {gone gone' : PtEntry → PeerId × ℕ → Bool} (h : Removed gone s s')
    (heq : ∀ pt k, gone pt k = gone' pt k) : Removed gone' s s' := by
  have : gone = gone' := funext fun pt => funext fun k => heq pt k
  exact this ▸ h

/-- Nothing of a destination is removed. -/
theorem Removed.adjIn_of_not {gone : PtEntry → PeerId × ℕ → Bool} (h : Removed gone s s')
    (hnot : ∀ k, gone pt k = false) : s'.adjIn pt = s.adjIn pt := by
  rw [h.adjIn, List.filter_eq_self]
  intro p _
  rw [hnot, Bool.not_false]

/-- Fewer paths in the Loc-RIBs. -/
theorem PathInv.shrink (h : PathInv s) {ribs' : ℕ → Option (LocRib ρ)}
    (hribs : ∀ i rib', ribs' i = some rib' →
      ∃ rib, s.ribs i = some rib ∧ ∀ k, (rib'.table k).Sublist (rib.table k)) :
    PathInv { s with ribs := ribs' } where
  keyed := h.keyed
  locKeyed i rib' hrib' k := by
    obtain ⟨rib, hrib, hsub⟩ := hribs i rib' hrib'
    exact (h.locKeyed i rib hrib k).sublist ((hsub k).map _)
  twin i rib' hrib' k x hx := by
    obtain ⟨rib, hrib, hsub⟩ := hribs i rib' hrib'
    exact h.twin i rib hrib k x ((hsub k).subset hx)
  locIds i hi := by
    by_contra hne
    obtain ⟨rib', hrib'⟩ := Option.ne_none_iff_exists'.mp hne
    obtain ⟨rib, hrib, -⟩ := hribs i rib' hrib'
    rw [h.locIds i hi] at hrib
    cases hrib
  keys := h.keys
  nodup := h.nodup
  known := h.known
  count := h.count

theorem withdraw_table (hk : Keyed (rib.table pt)) (k : PtEntry) :
    (rib.withdraw pt q pathId).table k =
      (rib.table k).filter fun p => !(decide (k = pt) && decide (p.key = (q, pathId))) := by
  rw [LocRib.withdraw, LocRib.setEntry, prefixWithdraw_eq hk]
  simp only [Function.update_apply]
  split_ifs with hk'
  · subst hk'
    simp [without]
  · simp [hk']

/-- The state without a path. -/
theorem PathInv.rdeUpdateWithdraw_eq (h : PathInv s) (q : PeerId) (pathId : ℕ) (pt : PtEntry) :
    s.rdeUpdateWithdraw q pathId pt =
      (({ s with ribs := fun i => (s.ribs i).map fun rib => rib.withdraw pt q pathId } :
        State ρ).setAdjIn pt (without (s.adjIn pt) (q, pathId))).count q
          (if (prefixBypeer (s.adjIn pt) q pathId).isSome then -1 else 0) := by
  unfold State.rdeUpdateWithdraw
  rw [h.forRibs_eq]
  apply withdrawAdjIn_eq
  exact h.keyed pt

/-- A withdraw keeps the invariant of the paths. -/
theorem PathInv.rdeUpdateWithdraw (h : PathInv s) (q : PeerId) (pathId : ℕ) (pt : PtEntry) :
    PathInv (s.rdeUpdateWithdraw q pathId pt) := by
  rw [h.rdeUpdateWithdraw_eq]
  have htable : ∀ i rib', (s.ribs i).map (fun rib => rib.withdraw pt q pathId) = some rib' →
      ∃ rib, s.ribs i = some rib ∧ rib' = rib.withdraw pt q pathId := by
    intro i rib' hrib'
    obtain ⟨rib, hrib, rfl⟩ := Option.map_eq_some_iff.mp hrib'
    exact ⟨rib, hrib, rfl⟩
  have hshrink : PathInv ({ s with
      ribs := fun i => (s.ribs i).map fun rib => rib.withdraw pt q pathId } : State ρ) := by
    refine h.shrink fun i rib' hrib' => ?_
    obtain ⟨rib, hrib, rfl⟩ := htable i rib' hrib'
    refine ⟨rib, hrib, fun k => ?_⟩
    rw [withdraw_table (h.locKeyed i rib hrib pt)]
    exact List.filter_sublist
  cases hget : prefixBypeer (s.adjIn pt) q pathId with
  -- a path that is not in the table is withdrawn from nothing
  | none =>
    have hself : Function.update s.adjIn pt (s.adjIn pt) = s.adjIn := Function.update_eq_self ..
    simpa [without_eq_self hget, count_zero, State.setAdjIn, hself] using hshrink
  | some p =>
    obtain ⟨hmem, hkey⟩ := mem_of_prefixBypeer hget
    refine hshrink.setAdjIn_count (h.keys pt (List.ne_nil_of_mem hmem)) ((h.keyed pt).filter _) ?_
      ?_ ?_
    -- a route has its twin as long as the path is in the Adj-RIB-In
    · intro i rib' hrib' x hx
      obtain ⟨rib, hrib, rfl⟩ := htable i rib' hrib'
      rw [withdraw_table (h.locKeyed i rib hrib pt)] at hx
      obtain ⟨y, hy, hykey, hytx⟩ := h.twin i rib hrib pt x (List.mem_filter.mp hx).1
      refine ⟨y, mem_without.mpr ⟨hy, ?_⟩, hykey, hytx⟩
      rw [hykey]
      simpa using (List.mem_filter.mp hx).2
    · intro x hx
      exact h.known pt x (mem_without.mp hx).1
    -- one path less of `q`, and of nobody else
    · intro p'
      have := (h.keyed pt).countP_without q p' pathId
      rw [hget] at this
      simp only [Option.isSome_some, and_true, if_true] at this ⊢
      rw [this]
      split_ifs <;> simp [without]

/-- A withdraw removes the one path with its key. -/
theorem PathInv.rdeUpdateWithdraw_removed (h : PathInv s) (q : PeerId) (pathId : ℕ)
    (pt : PtEntry) :
    Removed (fun k x => decide (k = pt) && decide (x = (q, pathId))) s
      (s.rdeUpdateWithdraw q pathId pt) := by
  rw [h.rdeUpdateWithdraw_eq]
  refine ⟨fun k => ?_, fun i => ?_, fun p => ?_, rfl, rfl, rfl⟩
  · simp only [count_eq, modifyPeer_adjIn, setAdjIn_adjIn]
    split_ifs with hk
    · subst hk
      simp [without]
    · simp [hk]
  · simp only [count_eq, modifyPeer_ribs, setAdjIn_ribs]
    cases hrib : s.ribs i with
    | none => rfl
    | some rib =>
      simp only [Option.map_some, Option.some.injEq]
      have htable : (rib.withdraw pt q pathId).table = fun k =>
          (rib.table k).filter fun p => !(decide (k = pt) && decide (p.key = (q, pathId))) :=
        funext (withdraw_table (h.locKeyed i rib hrib pt))
      rw [← htable]
      rfl
  · simp only [count_eq, modifyPeer_peers, setAdjIn_peers]
    by_cases hp : p = q
    · rw [if_pos hp, Option.map_map, hp]
      rfl
    · rw [if_neg hp]

/-! ## The walk of a flush -/

/-- `peer_flush_upcall` withdraws the paths that it walks over. -/
theorem PathInv.flushPath_eq (h : PathInv s) (hp : p ∈ s.adjIn pt) (hq : p.peer = q) :
    s.flushPath q pt p = s.rdeUpdateWithdraw q p.pathId pt := by
  subst hq
  rw [h.rdeUpdateWithdraw_eq, (h.keyed pt).prefixBypeer hp]
  unfold State.flushPath
  rw [h.forRibs_eq]
  simp only [prefixEvaluate, Option.toList_none, Option.elim_some, List.nil_append,
    (h.keyed pt).erase hp, Option.isSome_some, if_true]
  rfl

/-- Is the path flushed? -/
def isFlushed (q : PeerId) (staletime : Option ℕ) (p : Path) : Bool :=
  decide (p.peer = q) && State.isStale staletime p

/-- The flush of one prefix removes exactly the peer's stale paths. -/
theorem flushPaths (h : PathInv s) {l : List Path} (hsub : l ⊆ s.adjIn pt) (hl : Keyed l) :
    PathInv (l.foldl
        (fun s p => if p.peer = q ∧ State.isStale staletime p then s.flushPath q pt p else s) s) ∧
      Removed (fun k x => decide (k = pt) && l.any fun p => isFlushed q staletime p && p.key = x) s
        (l.foldl
          (fun s p => if p.peer = q ∧ State.isStale staletime p then s.flushPath q pt p else s)
          s) := by
  induction l generalizing s with
  | nil => exact ⟨h, (Removed.refl s).congr (by simp)⟩
  | cons p l ih =>
    obtain ⟨hp, hsub⟩ := List.cons_subset.mp hsub
    have hkeys := List.nodup_cons.mp (show (p.key :: l.map Path.key).Nodup from hl)
    rw [List.foldl_cons]
    by_cases hflush : p.peer = q ∧ State.isStale staletime p = true
    -- the path is flushed, and the list goes on without it
    · rw [if_pos hflush, h.flushPath_eq hp hflush.1]
      have hrem := h.rdeUpdateWithdraw_removed q p.pathId pt
      -- the paths behind it have other keys
      have hsub' : l ⊆ (s.rdeUpdateWithdraw q p.pathId pt).adjIn pt := by
        intro x hx
        rw [hrem.adjIn, List.mem_filter]
        refine ⟨hsub hx, ?_⟩
        have hne : x.key ≠ (q, p.pathId) := by
          intro heq
          apply hkeys.1
          rw [show p.key = x.key by rw [heq, ← hflush.1]; rfl]
          exact List.mem_map_of_mem hx
        simp [hne]
      obtain ⟨hinv, hrem'⟩ := ih (h.rdeUpdateWithdraw q p.pathId pt) hsub' hkeys.2
      refine ⟨hinv, (hrem.trans hrem').congr fun k x => ?_⟩
      have hkey : p.key = (q, p.pathId) := by rw [← hflush.1]; rfl
      simp only [List.any_cons, isFlushed, hflush.1, hflush.2, decide_true, Bool.true_and, hkey,
        eq_comm (a := x)]
      rw [Bool.and_or_distrib_left]
    -- the path is of another neighbour, or was heard of after the mark
    · rw [if_neg hflush]
      obtain ⟨hinv, hrem'⟩ := ih h hsub hkeys.2
      refine ⟨hinv, hrem'.congr fun k x => ?_⟩
      have hnot : isFlushed q staletime p = false := by
        simpa [isFlushed] using hflush
      rw [List.any_cons, hnot, Bool.false_and, Bool.false_or]

theorem PathInv.peerFlushUpcall (h : PathInv s) (q : PeerId) (staletime : Option ℕ)
    (pt : PtEntry) :
    PathInv (s.peerFlushUpcall q staletime pt) ∧
      Removed (fun k x => decide (k = pt) &&
        (s.adjIn pt).any fun p => isFlushed q staletime p && p.key = x) s
          (s.peerFlushUpcall q staletime pt) :=
  flushPaths h (List.Subset.refl _) (h.keyed pt)

theorem flushKeys (h : PathInv s) {l : List PtEntry} (hl : l.Nodup) :
    PathInv (l.foldl (fun s pt => s.peerFlushUpcall q staletime pt) s) ∧
      Removed (fun k x => decide (k ∈ l) &&
        (s.adjIn k).any fun p => isFlushed q staletime p && p.key = x) s
          (l.foldl (fun s pt => s.peerFlushUpcall q staletime pt) s) := by
  induction l generalizing s with
  | nil => exact ⟨h, (Removed.refl s).congr (by simp)⟩
  | cons pt l ih =>
    obtain ⟨hpt, hl⟩ := List.nodup_cons.mp hl
    obtain ⟨hinv, hrem⟩ := h.peerFlushUpcall q staletime pt
    obtain ⟨hinv', hrem'⟩ := ih hinv hl
    refine ⟨hinv', (hrem.trans hrem').congr fun k x => ?_⟩
    by_cases hk : k = pt
    · subst hk
      simp [hpt]
    · -- the visit has left other destinations alone
      rw [hrem.adjIn_of_not fun x => by simp [hk]]
      simp [hk]

/-- What a flush takes out of all RIBs. -/
def flushed (s : State ρ) (q : PeerId) (aid : Option Aid) (staletime : Option ℕ) (pt : PtEntry)
    (k : PeerId × ℕ) : Bool :=
  aid.all (· = pt.aid) && (s.adjIn pt).any fun p => isFlushed q staletime p && p.key = k

/-- Changes of a peer that its counter does not notice. -/
theorem PathInv.modifyPeer (h : PathInv s) {f : Peer → Peer}
    (hf : ∀ peer, s.peers q = some peer →
      (f peer).prefixCnt = peer.prefixCnt ∨ (f peer).prefixCnt = s.pathCount q) :
    PathInv (s.modifyPeer q f) where
  keyed := h.keyed
  locKeyed := h.locKeyed
  twin := h.twin
  locIds := h.locIds
  keys := h.keys
  nodup := h.nodup
  known pt x hx := by
    have hsome := h.known pt x hx
    rw [modifyPeer_peers]
    split_ifs with hq
    · simpa [← hq] using hsome
    · exact hsome
  count p peer hp := by
    show peer.prefixCnt = s.pathCount p
    rw [modifyPeer_peers] at hp
    split_ifs at hp with hpq
    · subst hpq
      obtain ⟨peer₀, hpeer, rfl⟩ := Option.map_eq_some_iff.mp hp
      rcases hf peer₀ hpeer with heq | heq
      · rw [heq]
        exact h.count p peer₀ hpeer
      · exact heq
    · exact h.count p peer hp

/-- The flush keeps the invariant and removes exactly the flushed paths. -/
theorem PathInv.peerFlush (h : PathInv s) (q : PeerId) (aid : Option Aid)
    (staletime : Option ℕ) :
    PathInv (s.peerFlush q aid staletime) ∧
      Removed (flushed s q aid staletime) s (s.peerFlush q aid staletime) := by
  set walked := (s.keys.filter fun pt => aid.all (· = pt.aid)).foldl
    (fun s pt => s.peerFlushUpcall q staletime pt) s with hwalked
  obtain ⟨hinv, hrem⟩ : PathInv walked ∧ _ :=
    flushKeys h (h.nodup.filter fun pt => aid.all (· = pt.aid))
  refine ⟨hinv.modifyPeer fun _ _ => Or.inl rfl, ?_⟩
  have hrem' : Removed (flushed s q aid staletime) s walked := by
    refine hrem.congr fun k x => ?_
    unfold flushed
    by_cases hk : k ∈ s.keys
    · simp [hk]
    · have hnil : s.adjIn k = [] := by
        by_contra hne
        exact hk (h.keys k hne)
      simp [hnil]
  refine ⟨hrem'.adjIn, hrem'.ribs, fun p => ?_, hrem'.table, hrem'.clock, hrem'.keys⟩
  rw [← hrem'.peers p]
  unfold State.peerFlush
  rw [modifyPeer_peers]
  by_cases hp : p = q
  · rw [if_pos hp, Option.map_map, hp]
    rfl
  · rw [if_neg hp]

/-- A flush takes out the paths of the peer that are old enough. -/
theorem PathInv.flushed_iff (h : PathInv s) (hp : p ∈ s.adjIn pt) :
    flushed s q aid staletime pt p.key = true ↔
      p.peer = q ∧ aid.all (· = pt.aid) = true ∧ State.isStale staletime p = true := by
  unfold flushed isFlushed
  simp only [Bool.and_eq_true, List.any_eq_true, decide_eq_true_eq]
  constructor
  · rintro ⟨haid, x, hx, ⟨hq, hstale⟩, hkey⟩
    obtain rfl : x = p := List.inj_on_of_nodup_map (h.keyed pt) hx hp hkey
    exact ⟨hq, haid, hstale⟩
  · rintro ⟨hq, haid, hstale⟩
    exact ⟨haid, p, hp, ⟨hq, hstale⟩, rfl⟩

/-! ## Every step -/

/-- The paths of the Adj-RIB-In have their times from before, apart from the one that has been
    updated. -/
def Ages (updated : Option (PtEntry × (PeerId × ℕ) × ℕ)) (s s' : State ρ) : Prop :=
  ∀ pt, ∀ p ∈ s'.adjIn pt, updated = some (pt, p.key, p.lastchange) ∨
    (∀ t, updated ≠ some (pt, p.key, t)) ∧
      ∃ x ∈ s.adjIn pt, x.key = p.key ∧ x.lastchange = p.lastchange

theorem Ages.of_subset (h : ∀ pt, s'.adjIn pt ⊆ s.adjIn pt) : Ages none s s' := by
  intro pt p hp
  exact Or.inr ⟨by simp, p, h pt hp, rfl, rfl⟩

theorem Ages.trans (h : Ages none s s₁) (h' : Ages none s₁ s') : Ages none s s' := by
  intro pt p hp
  obtain hu | ⟨-, x, hx, hkey, htime⟩ := h' pt p hp
  · cases hu
  · obtain hu | ⟨-, y, hy, hkey', htime'⟩ := h pt x hx
    · cases hu
    · exact Or.inr ⟨by simp, y, hy, hkey'.trans hkey, htime'.trans htime⟩

theorem Removed.ages {gone : PtEntry → PeerId × ℕ → Bool} (h : Removed gone s s') :
    Ages none s s' := by
  apply Ages.of_subset
  intro pt
  rw [h.adjIn]
  exact List.filter_sublist.subset

/-- The new session of a peer, and other changes that leave the RIBs alone. -/
theorem PathInv.clock (h : PathInv s) (now : ℕ) : PathInv { s with clock := now } :=
  ⟨h.keyed, h.locKeyed, h.twin, h.locIds, h.keys, h.nodup, h.known, h.count⟩

theorem PathInv.flushStaler (h : PathInv s) (q : PeerId) (aid : Aid) :
    PathInv (s.flushStaler q aid) ∧ Ages none s (s.flushStaler q aid) := by
  unfold State.flushStaler
  cases (s.peers q).bind (·.staletime aid) with
  | none => exact ⟨h, Ages.of_subset fun _ => List.Subset.refl _⟩
  | some t =>
    obtain ⟨hinv, hrem⟩ := h.peerFlush q (some aid) (some t)
    exact ⟨hinv, hrem.ages⟩

theorem PathInv.setStaletime (h : PathInv s) (q : PeerId) (aid : Aid) (now later : ℕ) :
    PathInv (s.setStaletime q aid now later) := by
  unfold State.setStaletime
  apply PathInv.clock
  exact h.modifyPeer fun _ _ => Or.inl rfl

theorem PathInv.peerBeginRrefresh (h : PathInv s) (q : PeerId) (aid : Aid) (now later : ℕ) :
    PathInv (s.peerBeginRrefresh q aid now later) ∧
      Ages none s (s.peerBeginRrefresh q aid now later) := by
  obtain ⟨hinv, hages⟩ := h.flushStaler q aid
  exact ⟨hinv.setStaletime q aid now later, hages⟩

theorem PathInv.peerStale (h : PathInv s) (q : PeerId) (aid : Aid) (flushall : Bool)
    (now later : ℕ) :
    PathInv (s.peerStale q aid flushall now later) ∧
      Ages none s (s.peerStale q aid flushall now later) := by
  obtain ⟨hinv, hages⟩ := h.peerBeginRrefresh q aid now later
  have hdown : PathInv ((s.peerBeginRrefresh q aid now later).modifyPeer q fun peer =>
      { peer with state := .down }) := hinv.modifyPeer fun _ _ => Or.inl rfl
  unfold State.peerStale
  dsimp only
  split_ifs
  · obtain ⟨hflush, hrem⟩ := hdown.peerFlush q (some aid) none
    exact ⟨hflush, Ages.trans hages hrem.ages⟩
  · exact ⟨hdown, hages⟩

/-- Without the paths of a peer there is nothing to count. -/
theorem pathCount_eq_zero (h : ∀ pt, ∀ p ∈ s.adjIn pt, p.peer ≠ q) : s.pathCount q = 0 := by
  unfold State.pathCount
  apply Finset.sum_eq_zero
  intro pt _
  rw [List.countP_eq_zero]
  intro p hp
  simpa using h pt p hp

theorem PathInv.peerDown (h : PathInv s) (q : PeerId) :
    PathInv (s.peerDown q) ∧ Ages none s (s.peerDown q) := by
  unfold State.peerDown
  dsimp only
  have hdown : PathInv (s.modifyPeer q fun peer => { peer with state := .down }) :=
    h.modifyPeer fun _ _ => Or.inl rfl
  obtain ⟨hinv, hrem⟩ := hdown.peerFlush q none none
  refine ⟨hinv.modifyPeer fun _ _ => Or.inr ?_, Ages.trans (fun pt p hp => ?_) hrem.ages⟩
  · -- all paths of the peer are gone
    rw [pathCount_eq_zero, Nat.cast_zero]
    intro pt p hp hq
    rw [hrem.adjIn, List.mem_filter] at hp
    have hgone : flushed _ q none none pt p.key = true :=
      (hdown.flushed_iff hp.1).mpr ⟨hq, rfl, rfl⟩
    simp [hgone] at hp
  · exact Or.inr ⟨by simp, p, hp, rfl, rfl⟩

theorem PathInv.peerUp (h : PathInv s) (q : PeerId) (addPathRecv : Aid → Bool) :
    PathInv (s.peerUp q addPathRecv) ∧ Ages none s (s.peerUp q addPathRecv) := by
  unfold State.peerUp
  dsimp only
  split_ifs
  · obtain ⟨hinv, hages⟩ := h.peerDown q
    exact ⟨hinv.modifyPeer fun _ _ => Or.inl rfl, hages⟩
  · exact ⟨h.modifyPeer fun _ _ => Or.inl rfl, Ages.of_subset fun _ => List.Subset.refl _⟩

@[simp] theorem peerAdd_adjIn (maxPrefix : ℕ) (random : List ℕ) :
    (s.peerAdd q maxPrefix random).adjIn = s.adjIn := by
  unfold State.peerAdd
  cases s.peers q with
  | some peer => rfl
  | none => cases s.drawPeerPathid random <;> rfl

/-- Adding a peer keeps the invariant and the paths. -/
theorem PathInv.peerAdd (h : PathInv s) (q : PeerId) (maxPrefix : ℕ) (random : List ℕ) :
    PathInv (s.peerAdd q maxPrefix random) ∧ Ages none s (s.peerAdd q maxPrefix random) := by
  refine ⟨?_, Ages.of_subset fun pt => by rw [peerAdd_adjIn]; exact List.Subset.refl _⟩
  unfold State.peerAdd
  cases hq : s.peers q with
  | some peer => exact h.modifyPeer fun _ _ => Or.inl rfl
  | none =>
    cases s.drawPeerPathid random with
    | none => exact h
    | some tx =>
      have hother : ∀ pt, ∀ p ∈ s.adjIn pt, p.peer ≠ q := by
        intro pt p hp heq
        have := h.known pt p hp
        simp [heq, hq] at this
      refine ⟨h.keyed, h.locKeyed, h.twin, h.locIds, h.keys, h.nodup, ?_, ?_⟩
      · intro pt p hp
        simpa [Function.update_apply, hother pt p hp] using h.known pt p hp
      · intro p peer hp
        show peer.prefixCnt = s.pathCount p
        simp only [Function.update_apply] at hp
        split_ifs at hp with hpq
        · cases hp
          rw [hpq, pathCount_eq_zero hother, Nat.cast_zero]
        · exact h.count p peer hp

theorem mem_locIds : i ∈ s.locIds ↔ ribLocStart ≤ i ∧ i < s.ribSize := by
  unfold State.locIds
  rw [List.mem_range'_1]
  omega

/-- A reload keeps the invariant of the paths. -/
theorem PathInv.reload (h : PathInv s) (ribSize : ℕ) (inRules : ℕ → Option ρ)
    (filteredInLocrib : Bool) : PathInv (s.reload ribSize inRules filteredInLocrib) := by
  have hribs : ∀ i rib', (s.reload ribSize inRules filteredInLocrib).ribs i = some rib' →
      rib'.table = (s.ribs i).elim (fun _ => []) (·.table) := by
    intro i rib' hrib'
    simp only [State.reload] at hrib'
    split_ifs at hrib'
    obtain ⟨rules, -, rfl⟩ := Option.map_eq_some_iff.mp hrib'
    rfl
  refine ⟨h.keyed, ?_, ?_, ?_, h.keys, h.nodup, h.known, h.count⟩
  · intro i rib' hrib' pt
    rw [hribs i rib' hrib']
    cases hrib : s.ribs i with
    | none => exact List.nodup_nil
    | some rib => exact h.locKeyed i rib hrib pt
  · intro i rib' hrib' pt p hp
    rw [hribs i rib' hrib'] at hp
    cases hrib : s.ribs i with
    | none => simp [hrib] at hp
    | some rib =>
      rw [hrib] at hp
      exact h.twin i rib hrib pt p hp
  · intro i hi
    rw [mem_locIds] at hi
    simp only [State.reload] at hi ⊢
    rw [if_pos (by omega)]

/-- `prefix_set_vstate` for all paths of a destination. -/
theorem PathInv.setVstate (h : PathInv s) (vstate : Path → ℕ) (pt : PtEntry) :
    PathInv (s.setAdjIn pt ((s.adjIn pt).map (State.setVstate vstate))) := by
  by_cases hpt : pt ∈ s.keys
  · have hkeyed : Keyed ((s.adjIn pt).map (State.setVstate vstate)) := by
      unfold Keyed
      rw [List.map_map]
      exact h.keyed pt
    have hinv := h.setAdjIn_count (q := 0) (n := 0) hpt hkeyed ?_ ?_ ?_
    · rwa [count_zero] at hinv
    · intro i rib hrib x hx
      obtain ⟨y, hy, hkey, htx⟩ := h.twin i rib hrib pt x hx
      exact ⟨State.setVstate vstate y, List.mem_map_of_mem hy, hkey, htx⟩
    · intro x hx
      obtain ⟨y, hy, rfl⟩ := List.mem_map.mp hx
      exact h.known pt y hy
    · intro p
      rw [List.countP_map]
      simp [Function.comp_def, State.setVstate]
      rfl
  · have hnil : s.adjIn pt = [] := by
      by_contra hne
      exact hpt (h.keys pt hne)
    have hself : Function.update s.adjIn pt [] = s.adjIn := by
      rw [← hnil, Function.update_eq_self]
    simpa [hnil, State.setAdjIn, hself] using h

/-- A loop over the Loc-RIBs after a change of a path in the Adj-RIB-In. -/
theorem PathInv.forRibsM (h : PathInv s) (htwin : Twin (s.adjIn pt) p)
    {f : ℕ → LocRib ρ → Except Fatal (LocRib ρ)}
    (hf : ∀ i rib rib', s.ribs i = some rib → f i rib = .ok rib' →
      rib' = rib ∨ Refilled pt p rib rib')
    (hrun : s.forRibsM f = .ok s') : PathInv s' ∧ s'.adjIn = s.adjIn ∧ s'.clock = s.clock := by
  obtain ⟨ribs', rfl, hribs⟩ := h.forRibsM_eq hrun
  refine ⟨h.refill htwin fun i rib' hrib' => ?_, rfl, rfl⟩
  have hi := hribs i
  cases hrib : s.ribs i with
  | none =>
    rw [hrib, visitRib, hrib'] at hi
    cases hi
  | some rib =>
    rw [hrib, visitRib, hrib'] at hi
    cases hrun : f i rib with
    | error e =>
      rw [hrun] at hi
      cases hi
    | ok rib₁ =>
      rw [hrun] at hi
      cases hi
      exact ⟨rib, rfl, hf i rib _ hrib hrun⟩

theorem PathInv.refilterPath (h : PathInv s) {f : ℕ → Bool} {now : ℕ} (htwin : Twin (s.adjIn pt) p)
    (hrun : s.refilterPath env pt f now p = .ok s') :
    PathInv s' ∧ s'.adjIn = s.adjIn ∧ s'.clock = s.clock := by
  have htwin' : Twin (s.adjIn pt) { p with lastchange := now } := htwin
  refine h.forRibsM htwin' (fun i rib rib' hrib heq => ?_) hrun
  split_ifs at heq
  · exact Or.inr (filterPath_ok (h.locKeyed i rib hrib pt) heq)
  · cases heq
    exact Or.inl rfl

/-- Filtering the paths of a prefix again keeps the invariant and the paths. -/
theorem PathInv.refilterPaths (h : PathInv s) {f : ℕ → Bool} {now : ℕ} {l : List Path}
    (hl : ∀ p ∈ l, Twin (s.adjIn pt) p)
    (hrun : l.foldlM (fun s p => s.refilterPath env pt f now p) s = .ok s') :
    PathInv s' ∧ s'.adjIn = s.adjIn ∧ s'.clock = s.clock := by
  induction l generalizing s with
  | nil =>
    cases hrun
    exact ⟨h, rfl, rfl⟩
  | cons p l ih =>
    rw [List.foldlM_cons] at hrun
    cases hpath : s.refilterPath env pt f now p with
    | error e =>
      rw [hpath] at hrun
      cases hrun
    | ok s₁ =>
      rw [hpath] at hrun
      obtain ⟨hinv, hadj, hclock⟩ := h.refilterPath (hl p List.mem_cons_self) hpath
      have hl' : ∀ x ∈ l, Twin (s₁.adjIn pt) x := by
        intro x hx
        rw [hadj]
        exact hl x (List.mem_cons_of_mem _ hx)
      obtain ⟨hinv', hadj', hclock'⟩ := ih hinv hl' hrun
      exact ⟨hinv', hadj'.trans hadj, hclock'.trans hclock⟩

theorem PathInv.refilter (h : PathInv s) {f : ℕ → Bool} {now : ℕ} {todo : List Path}
    (htodo : ∀ p ∈ todo, Twin (s.adjIn pt) p) (hrun : s.refilter env pt f now todo = .ok s') :
    PathInv s' ∧ s'.adjIn = s.adjIn ∧ s'.clock = s.clock :=
  h.refilterPaths (fun p hp => htodo p (List.mem_filter.mp hp).1) hrun

/-- A walk of a reload visits a destination. -/
theorem PathInv.revalidate (h : PathInv s) {vstate : Path → ℕ} {f : ℕ → Bool} {now : ℕ}
    {todo : List Path} (htodo : todo ⊆ s.adjIn pt)
    (hrun : (s.setAdjIn pt ((s.adjIn pt).map (State.setVstate vstate))).refilter env pt f now
      (todo.map (State.setVstate vstate)) = .ok s') :
    PathInv s' ∧ Ages none s s' ∧ s'.clock = s.clock := by
  obtain ⟨hinv, hadj, hclock⟩ := (h.setVstate vstate pt).refilter (fun p hp => by
    obtain ⟨x, hx, rfl⟩ := List.mem_map.mp hp
    refine ⟨State.setVstate vstate x, ?_, rfl, rfl⟩
    rw [setAdjIn_adjIn, if_pos rfl]
    exact List.mem_map_of_mem (htodo hx)) hrun
  refine ⟨hinv, fun k p hp => Or.inr ⟨by simp, ?_⟩, hclock⟩
  rw [hadj, setAdjIn_adjIn] at hp
  split_ifs at hp with hk
  · obtain ⟨x, hx, rfl⟩ := List.mem_map.mp hp
    exact ⟨x, hk ▸ hx, rfl, rfl⟩
  · exact ⟨p, hp, rfl, rfl⟩

/-! ## Updates -/

/-- What the event updates: a path and the time. -/
def State.updated (s : State ρ) : Event ρ → Option (PtEntry × (PeerId × ℕ) × ℕ)
  | .update q pathId pt _ random now =>
    (s.upPeer q pt).bind fun peer =>
      (s.pathidAssign peer q (wirePathId peer pt pathId) pt random).map fun _ =>
        (pt, (q, wirePathId peer pt pathId), now)
  | .networkAdd pt _ now =>
    (s.peers peerself).bind fun self =>
      (s.pathidAssign self peerself 0 pt []).map fun _ => (pt, (peerself, 0), now)
  | _ => none

theorem updated_update {pt : PtEntry} {state : FilterState} {random : List ℕ} {now : ℕ} :
    s.updated (.update q pathId pt state random now) = (s.upPeer q pt).bind fun peer =>
      (s.pathidAssign peer q (State.wirePathId peer pt pathId) pt random).map fun _ =>
        (pt, (q, State.wirePathId peer pt pathId), now) := rfl

theorem updated_networkAdd {pt : PtEntry} {state : FilterState} {now : ℕ} :
    s.updated (.networkAdd pt state now) = (s.peers peerself).bind fun self =>
      (s.pathidAssign self peerself 0 pt []).map fun _ => (pt, (peerself, 0), now) := rfl

theorem PathInv.updateAdjIn_ages (h : PathInv s) (hrun : s.updateAdjIn pt p = .ok s') :
    Ages (some (pt, p.key, p.lastchange)) s s' ∧ s'.clock = s.clock := by
  obtain ⟨-, re, hperm, rfl⟩ := updateAdjIn_ok (h.keyed pt) hrun
  refine ⟨fun k x hx => ?_, by simp [count_eq]⟩
  simp only [count_eq, modifyPeer_adjIn, setAdjIn_adjIn, addKey_adjIn] at hx
  split_ifs at hx with hk
  · subst hk
    rcases List.mem_cons.mp (hperm.mem_iff.mp hx) with rfl | hx
    · exact Or.inl rfl
    · obtain ⟨hx, hne⟩ := mem_without.mp hx
      exact Or.inr ⟨fun t heq => hne (by simp_all), x, hx, rfl, rfl⟩
  · exact Or.inr ⟨fun t heq => hk (by simp_all), x, hx, rfl, rfl⟩

theorem Ages.of_adjIn_eq {u : Option (PtEntry × (PeerId × ℕ) × ℕ)} (h : Ages u s s₁)
    (heq : s'.adjIn = s₁.adjIn) : Ages u s s' := by
  intro pt p hp
  rw [heq] at hp
  exact h pt p hp

/-- An update keeps the invariant and gives its path the time of the update. -/
theorem PathInv.rdeUpdateUpdate (h : PathInv s) (hq : (s.peers q).isSome) {peer : Peer}
    {state : FilterState} {random : List ℕ} {now : ℕ}
    (hrun : s.rdeUpdateUpdate env q peer pathId pt state random now = .ok s') :
    PathInv s' ∧ Ages ((s.pathidAssign peer q pathId pt random).map fun _ =>
      (pt, (q, pathId), now)) s s' ∧ s'.clock = s.clock := by
  unfold State.rdeUpdateUpdate at hrun
  cases htx : s.pathidAssign peer q pathId pt random with
  | none =>
    simp only [htx] at hrun
    cases hrun
    exact ⟨h, Ages.of_subset fun _ => List.Subset.refl _, rfl⟩
  | some tx =>
    simp only [htx] at hrun
    cases hadj : s.updateAdjIn pt ⟨q, pathId, tx, state, false, now⟩ with
    | error e =>
      rw [hadj] at hrun
      cases hrun
    | ok s₁ =>
      simp only [hadj, bind, Except.bind] at hrun
      obtain ⟨hinv, hmem, -⟩ := h.updateAdjIn hq hadj
      obtain ⟨hages, hclock⟩ := h.updateAdjIn_ages hadj
      split_ifs at hrun
      · cases hrun
        exact ⟨hinv.modifyPeer fun _ _ => Or.inl rfl, hages, hclock⟩
      · obtain ⟨hinv', hadj', hclock'⟩ := hinv.forRibsM ⟨_, hmem, rfl, rfl⟩
          (fun i rib rib' hrib heq => Or.inr (filterPath_ok (hinv.locKeyed i rib hrib pt) heq)) hrun
        exact ⟨hinv', hages.of_adjIn_eq hadj', hclock'.trans hclock⟩

/-- A network statement keeps the invariant and dates its path. -/
theorem PathInv.networkAdd (h : PathInv s) {state : FilterState} {now : ℕ}
    (hrun : s.networkAdd pt state now = .ok s') :
    PathInv s' ∧ Ages (s.updated (.networkAdd pt state now)) s s' ∧ s'.clock = s.clock := by
  unfold State.networkAdd at hrun
  rw [updated_networkAdd]
  cases hself : s.peers peerself with
  | none =>
    simp only [hself] at hrun
    cases hrun
    exact ⟨h, Ages.of_subset fun _ => List.Subset.refl _, rfl⟩
  | some self =>
    simp only [hself] at hrun
    rw [Option.bind_some]
    cases htx : s.pathidAssign self peerself 0 pt [] with
    | none =>
      simp only [htx] at hrun
      cases hrun
      exact ⟨h, Ages.of_subset fun _ => List.Subset.refl _, rfl⟩
    | some tx =>
      simp only [htx] at hrun
      cases hadj : s.updateAdjIn pt ⟨peerself, 0, tx, state, false, now⟩ with
      | error e =>
        rw [hadj] at hrun
        cases hrun
      | ok s₁ =>
        simp only [hadj, bind, Except.bind] at hrun
        obtain ⟨hinv, hmem, -⟩ := h.updateAdjIn (by simp [hself]) hadj
        obtain ⟨hages, hclock⟩ := h.updateAdjIn_ages hadj
        obtain ⟨hinv', hadj', hclock'⟩ := hinv.forRibsM ⟨_, hmem, rfl, rfl⟩
          (fun i rib rib' hrib heq => Or.inr (LocRib.update_ok (hinv.locKeyed i rib hrib pt) heq))
          hrun
        exact ⟨hinv', hages.of_adjIn_eq hadj', hclock'.trans hclock⟩

theorem upPeer_isSome {peer : Peer} (h : s.upPeer q pt = some peer) : s.peers q = some peer :=
  (Option.filter_eq_some_iff.mp h).1

/-- Session events do nothing to the peer of the networks announced locally. -/
theorem PathInv.unlessSelf (h : PathInv s) (h' : PathInv s' ∧ Ages none s s') :
    PathInv (if q = peerself then s else s') ∧ Ages none s (if q = peerself then s else s') := by
  split_ifs
  · exact ⟨h, Ages.of_subset fun _ => List.Subset.refl _⟩
  · exact h'

/-- Every step keeps the RIBs in order, and only updates the time of the path that is updated. -/
theorem PathInv.step (h : PathInv s) {e : Event ρ} (hrun : s.step env e = .ok s') :
    PathInv s' ∧ Ages (s.updated e) s s' := by
  cases e with
  | peerAdd q maxPrefix random =>
    cases hrun
    exact h.peerAdd q maxPrefix random
  | up q addPathRecv =>
    cases hrun
    exact h.unlessSelf (h.peerUp q addPathRecv)
  | down q =>
    cases hrun
    exact h.unlessSelf (h.peerDown q)
  | stale q aid flushall now later =>
    cases hrun
    exact h.unlessSelf (h.peerStale q aid flushall now later)
  | flush q aid staletime =>
    cases hrun
    obtain ⟨hinv, hrem⟩ := h.peerFlush q aid staletime
    exact h.unlessSelf ⟨hinv, hrem.ages⟩
  | beginRrefresh q aid now later =>
    cases hrun
    exact h.unlessSelf (h.peerBeginRrefresh q aid now later)
  | updateErr q =>
    cases hrun
    exact h.unlessSelf
      ⟨h.modifyPeer fun _ _ => Or.inl rfl, Ages.of_subset fun _ => List.Subset.refl _⟩
  | update q pathId pt state random now =>
    unfold State.step at hrun
    rw [updated_update]
    cases hpeer : s.upPeer q pt with
    | none =>
      simp only [hpeer] at hrun
      cases hrun
      exact ⟨h, Ages.of_subset fun _ => List.Subset.refl _⟩
    | some peer =>
      simp only [hpeer] at hrun
      obtain ⟨hinv, hages, -⟩ :=
        (h.clock now).rdeUpdateUpdate (by simp [upPeer_isSome hpeer]) hrun
      exact ⟨hinv, hages⟩
  -- a message counts only from a neighbour that is up
  | withdraw q pathId pt =>
    unfold State.step at hrun
    cases hpeer : s.upPeer q pt with
    | none =>
      simp only [hpeer] at hrun
      cases hrun
      exact ⟨h, Ages.of_subset fun _ => List.Subset.refl _⟩
    | some peer =>
      simp only [hpeer] at hrun
      cases hrun
      exact ⟨h.rdeUpdateWithdraw _ _ _, (h.rdeUpdateWithdraw_removed _ _ _).ages⟩
  | networkAdd pt state now =>
    obtain ⟨hinv, hages, -⟩ := (h.clock now).networkAdd hrun
    exact ⟨hinv, hages⟩
  | networkDelete pt =>
    cases hrun
    exact ⟨h.rdeUpdateWithdraw _ _ _, (h.rdeUpdateWithdraw_removed _ _ _).ages⟩
  | reload ribSize inRules filteredInLocrib =>
    cases hrun
    exact ⟨h.reload _ _ _, Ages.of_subset fun _ => List.Subset.refl _⟩
  | softreconfigIn pt vstate reloaded now =>
    obtain ⟨hinv, hages, -⟩ := (h.clock now).revalidate (List.Subset.refl _) hrun
    exact ⟨hinv, hages⟩
  | rpkiSoftreload pt vstate now =>
    obtain ⟨hinv, hages, -⟩ := (h.clock now).revalidate List.filter_sublist.subset hrun
    exact ⟨hinv, hages⟩

/-- The RIBs before there are peers. -/
theorem PathInv.empty (rules : ρ) :
    PathInv ({ ribs := Function.update (fun _ => none) ribLocStart (some { inRules := rules }) } :
      State ρ) := by
  have hribs : ∀ i rib, Function.update (fun _ => none) ribLocStart
      (some ({ inRules := rules } : LocRib ρ)) i = some rib →
        i = ribLocStart ∧ ∀ pt, rib.table pt = [] := by
    intro i rib hrib
    simp only [Function.update_apply] at hrib
    split_ifs at hrib with hi
    cases hrib
    exact ⟨hi, fun _ => rfl⟩
  refine ⟨fun _ => List.nodup_nil, ?_, ?_, ?_, by simp, List.nodup_nil, by simp, by simp⟩
  · intro i rib hrib pt
    rw [(hribs i rib hrib).2]
    exact List.nodup_nil
  · intro i rib hrib pt p hp
    simp [(hribs i rib hrib).2] at hp
  · intro i hi
    by_contra hne
    obtain ⟨rib, hrib⟩ := Option.ne_none_iff_exists'.mp hne
    rw [(hribs i rib hrib).1] at hi
    exact hi (mem_locIds.mpr ⟨le_rfl, show 1 < 2 by decide⟩)

theorem PathInv.init (rules : ρ) (random : List ℕ) : PathInv (State.init rules random) :=
  ((PathInv.empty rules).peerAdd peerself 0 random).1.modifyPeer fun _ _ => Or.inl rfl

/-! ## Runs -/

/-- The time of the last update for a key in a run. -/
def lastUpdate (env : Filter ρ) (pt : PtEntry) (k : PeerId × ℕ) :
    State ρ → List (Event ρ) → Option ℕ
  | _, [] => none
  | s, e :: es =>
    ((rdeStep env s e).bind fun s' => lastUpdate env pt k s' es).or
      ((s.updated e).bind fun u => if u.1 = pt ∧ u.2.1 = k then some u.2.2 else none)

theorem step_of_rdeStep {e : Event ρ} (h : rdeStep env s e = some s') : s.step env e = .ok s' := by
  unfold rdeStep at h
  cases hstep : s.step env e with
  | error e =>
    rw [hstep] at h
    cases h
  | ok s₁ =>
    rw [hstep] at h
    cases h
    rfl

theorem PathInv.run {ok : State ρ → Event ρ → Prop} {es : List (Event ρ)}
    (hrun : Run (rdeStep env) ok s es s') (h : PathInv s) : PathInv s' :=
  hrun.invariant (fun _ _ _ hs _ hstep => (hs.step (step_of_rdeStep hstep)).1) h

/-- The time of a path in the Adj-RIB-In is that of the last update for it. -/
theorem lastchange_eq {ok : State ρ → Event ρ → Prop} {es : List (Event ρ)}
    (hrun : Run (rdeStep env) ok s es s') (h : PathInv s) (hp : p ∈ s'.adjIn pt) :
    lastUpdate env pt p.key s es = some p.lastchange ∨
      lastUpdate env pt p.key s es = none ∧
        ∃ x ∈ s.adjIn pt, x.key = p.key ∧ x.lastchange = p.lastchange := by
  induction hrun with
  | nil s => exact Or.inr ⟨rfl, p, hp, rfl, rfl⟩
  | @cons s s₁ s' e es _ hstep _ ih =>
    obtain ⟨hinv, hages⟩ := h.step (step_of_rdeStep hstep)
    rw [lastUpdate, hstep, Option.bind_some]
    rcases ih hinv hp with hlast | ⟨hlast, x, hx, hkey, htime⟩
    · exact Or.inl (by rw [hlast, Option.some_or])
    · rw [hlast, Option.none_or]
      rcases hages pt x hx with hu | ⟨hu, y, hy, hkey', htime'⟩
      · left
        simp [hu, hkey, htime]
      · right
        refine ⟨?_, y, hy, hkey'.trans hkey, htime'.trans htime⟩
        rw [Option.bind_eq_none_iff]
        rintro ⟨pt', k', t⟩ heq
        rw [if_neg]
        rintro ⟨rfl, rfl⟩
        exact hu t (by rw [heq, hkey])

/-- The keys that a flush is about: those of the peer and the address family that were not
    updated after the time. Without a time these are all. -/
def Old (env : Filter ρ) (s₀ : State ρ) (es : List (Event ρ)) (q : PeerId) (aid : Option Aid)
    (staletime : Option ℕ) (pt : PtEntry) (k : PeerId × ℕ) : Prop :=
  k.1 = q ∧ (∀ a ∈ aid, a = pt.aid) ∧
    ∀ t ∈ staletime, ¬∃ u, lastUpdate env pt k s₀ es = some u ∧ t < u

theorem flushed_iff_old {rules : ρ} {random : List ℕ} {es : List (Event ρ)}
    (hrun : Run (rdeStep env) (fun _ _ => True) (State.init rules random) es s)
    (hp : p ∈ s.adjIn pt) : flushed s q aid staletime pt p.key = true ↔
      Old env (State.init rules random) es q aid staletime pt p.key := by
  have hinit := PathInv.init rules random
  rw [(hinit.run hrun).flushed_iff hp]
  have hlast : lastUpdate env pt p.key (State.init rules random) es = some p.lastchange := by
    rcases lastchange_eq hrun hinit hp with hlast | ⟨-, x, hx, -⟩
    · exact hlast
    · -- there is nothing at the start
      simp [State.init] at hx
  have haid : aid.all (· = pt.aid) = true ↔ ∀ a ∈ aid, a = pt.aid := by
    cases aid <;> simp
  have hstale : State.isStale staletime p = true ↔
      ∀ t ∈ staletime, ¬∃ u, some p.lastchange = some u ∧ t < u := by
    cases staletime <;> simp [State.isStale]
  rw [haid, hstale, Old, hlast]
  rfl

theorem Removed.mem_adjIn {gone : PtEntry → PeerId × ℕ → Bool} (h : Removed gone s s') :
    p ∈ s'.adjIn pt ↔ p ∈ s.adjIn pt ∧ ¬gone pt p.key = true := by
  rw [h.adjIn, List.mem_filter]
  simp

/-- The paths of a Loc-RIB. -/
def State.locPaths (s : State ρ) (i : ℕ) (pt : PtEntry) : List Path :=
  (s.ribs i).elim [] fun rib => rib.table pt

theorem Removed.mem_locPaths {gone : PtEntry → PeerId × ℕ → Bool} (h : Removed gone s s') :
    p ∈ s'.locPaths i pt ↔ p ∈ s.locPaths i pt ∧ ¬gone pt p.key = true := by
  unfold State.locPaths
  rw [h.ribs]
  cases s.ribs i with
  | none => simp
  | some rib => simp

theorem PathInv.twin_locPaths (h : PathInv s) (hp : p ∈ s.locPaths i pt) : Twin (s.adjIn pt) p := by
  unfold State.locPaths at hp
  cases hrib : s.ribs i with
  | none => simp [hrib] at hp
  | some rib =>
    rw [hrib] at hp
    exact h.twin i rib hrib pt p hp

/-- Flushes are exact. The counter of the peer of the networks announced locally is the
    number of its paths as long as there are no flow specifications. -/
theorem peerFlush_exact {rules : ρ} {random : List ℕ} {es : List (Event ρ)}
    (hrun : Run (rdeStep env) (fun _ _ => True) (State.init rules random) es s) :
    (∀ q peer, s.peers q = some peer → peer.prefixCnt = s.pathCount q) ∧
      (∀ i pt, ∀ p ∈ s.locPaths i pt, ∃ x ∈ s.adjIn pt, x.peer = p.peer ∧ x.pathId = p.pathId) ∧
      ∀ q aid staletime,
        (∀ pt p, p ∈ (s.peerFlush q aid staletime).adjIn pt ↔ p ∈ s.adjIn pt ∧
          ¬Old env (State.init rules random) es q aid staletime pt p.key) ∧
        (∀ i pt p, p ∈ (s.peerFlush q aid staletime).locPaths i pt ↔ p ∈ s.locPaths i pt ∧
          ¬Old env (State.init rules random) es q aid staletime pt p.key) ∧
        (∀ i pt, ∀ p ∈ (s.peerFlush q aid staletime).locPaths i pt,
          ∃ x ∈ (s.peerFlush q aid staletime).adjIn pt, x.peer = p.peer ∧ x.pathId = p.pathId) ∧
        ∀ p peer, (s.peerFlush q aid staletime).peers p = some peer →
          peer.prefixCnt = (s.peerFlush q aid staletime).pathCount p := by
  have hinv := (PathInv.init rules random).run hrun
  have htwin : ∀ {s : State ρ}, PathInv s → ∀ i pt, ∀ p ∈ s.locPaths i pt,
      ∃ x ∈ s.adjIn pt, x.peer = p.peer ∧ x.pathId = p.pathId := by
    intro s h i pt p hp
    obtain ⟨x, hx, hkey, -⟩ := h.twin_locPaths hp
    exact ⟨x, hx, Prod.mk.inj hkey⟩
  refine ⟨hinv.count, htwin hinv, fun q aid staletime => ?_⟩
  obtain ⟨hflush, hrem⟩ := hinv.peerFlush q aid staletime
  refine ⟨fun pt p => ?_, fun i pt p => ?_, htwin hflush, hflush.count⟩
  · rw [hrem.mem_adjIn]
    exact and_congr_right fun hp => not_congr (flushed_iff_old hrun hp)
  · rw [hrem.mem_locPaths]
    -- the keys of a Loc-RIB are keys of the Adj-RIB-In
    refine and_congr_right fun hp => not_congr ?_
    obtain ⟨x, hx, hkey, -⟩ := hinv.twin_locPaths hp
    rw [← hkey]
    exact flushed_iff_old hrun hx

/-- A peer whose session is lost after an update. -/
theorem peerFlush_exact_sample :
    ∃ s : State Unit,
      Run (rdeStep fun _ _ _ state => (true, state)) (fun _ _ => True) (State.init () [3])
        [.peerAdd 2 0 [7], .up 2 fun _ => false, .update 2 0 ⟨.inet, 10, 8⟩ {} [] 5,
          .stale 2 .inet false 6 7] s ∧
      (s.adjIn ⟨.inet, 10, 8⟩).length = 1 ∧
      ∀ q peer, s.peers q = some peer → peer.prefixCnt = s.pathCount q := by
  obtain ⟨s, hrun, hlen⟩ := exists_run (rdeStep fun _ _ _ state => (true, state))
    (fun _ _ => True) (State.init () [3])
    [.peerAdd 2 0 [7], .up 2 fun _ => false, .update 2 0 ⟨.inet, 10, 8⟩ {} [] 5,
      .stale 2 .inet false 6 7]
    (fun s => (s.adjIn ⟨.inet, 10, 8⟩).length = 1) (by decide)
  exact ⟨s, hrun, hlen, (peerFlush_exact hrun).1⟩

/-! ## The clock -/

/-- The clock does not go back, and the loop that waits for a later time has found one. -/
def Timely (s : State ρ) : Event ρ → Prop
  | .stale _ _ _ now later => s.clock ≤ now ∧ now < later
  | .beginRrefresh _ _ now later => s.clock ≤ now ∧ now < later
  | .update _ _ _ _ _ now => s.clock ≤ now
  | .networkAdd _ _ now => s.clock ≤ now
  | .softreconfigIn _ _ _ now => s.clock ≤ now
  | .rpkiSoftreload _ _ now => s.clock ≤ now
  | _ => True

theorem PathInv.peerStale_clock (h : PathInv s) (q : PeerId) (aid : Aid) (flushall : Bool)
    (now later : ℕ) : (s.peerStale q aid flushall now later).clock = later := by
  unfold State.peerStale
  dsimp only
  split_ifs
  · have hdown : PathInv ((s.peerBeginRrefresh q aid now later).modifyPeer q fun peer =>
        { peer with state := .down }) :=
      (h.peerBeginRrefresh q aid now later).1.modifyPeer fun _ _ => Or.inl rfl
    exact (hdown.peerFlush q (some aid) none).2.clock
  · rfl

theorem PathInv.peerDown_clock (h : PathInv s) (q : PeerId) : (s.peerDown q).clock = s.clock := by
  have hdown : PathInv (s.modifyPeer q fun peer => { peer with state := .down }) :=
    h.modifyPeer fun _ _ => Or.inl rfl
  exact (hdown.peerFlush q none none).2.clock

theorem PathInv.peerUp_clock (h : PathInv s) (q : PeerId) (addPathRecv : Aid → Bool) :
    (s.peerUp q addPathRecv).clock = s.clock := by
  unfold State.peerUp
  dsimp only
  split_ifs
  · exact h.peerDown_clock q
  · rfl

theorem peerAdd_clock (maxPrefix : ℕ) (random : List ℕ) :
    (s.peerAdd q maxPrefix random).clock = s.clock := by
  unfold State.peerAdd
  cases s.peers q with
  | some peer => rfl
  | none => cases s.drawPeerPathid random <;> rfl

/-- An update is marked with the time of its event. -/
theorem PathInv.step_clock (h : PathInv s) {e : Event ρ} (ht : Timely s e)
    (hrun : s.step env e = .ok s') :
    s.clock ≤ s'.clock ∧ ∀ u ∈ s.updated e, u.2.2 = s'.clock := by
  cases e with
  | peerAdd q maxPrefix random =>
    cases hrun
    exact ⟨(peerAdd_clock maxPrefix random).ge, nofun⟩
  | up q addPathRecv =>
    cases hrun
    refine ⟨?_, nofun⟩
    split_ifs
    · exact le_rfl
    · exact (h.peerUp_clock q addPathRecv).ge
  | down q =>
    cases hrun
    refine ⟨?_, nofun⟩
    split_ifs
    · exact le_rfl
    · exact (h.peerDown_clock q).ge
  | stale q aid flushall now later =>
    cases hrun
    refine ⟨?_, nofun⟩
    split_ifs
    · exact le_rfl
    · rw [h.peerStale_clock]
      exact ht.1.trans ht.2.le
  | flush q aid staletime =>
    cases hrun
    refine ⟨?_, nofun⟩
    split_ifs
    · exact le_rfl
    · exact (h.peerFlush q aid staletime).2.clock.ge
  | beginRrefresh q aid now later =>
    cases hrun
    refine ⟨?_, nofun⟩
    split_ifs
    · exact le_rfl
    · exact ht.1.trans ht.2.le
  | updateErr q =>
    cases hrun
    refine ⟨?_, nofun⟩
    split_ifs <;> exact le_rfl
  | update q pathId pt state random now =>
    unfold State.step at hrun
    rw [updated_update]
    cases hpeer : s.upPeer q pt with
    | none =>
      simp only [hpeer] at hrun
      cases hrun
      exact ⟨le_rfl, nofun⟩
    | some peer =>
      simp only [hpeer] at hrun
      obtain ⟨-, -, hclock⟩ :=
        (h.clock now).rdeUpdateUpdate (by simp [upPeer_isSome hpeer]) hrun
      rw [hclock]
      refine ⟨ht, fun u hu => ?_⟩
      obtain ⟨_, -, rfl⟩ := Option.map_eq_some_iff.mp hu
      rfl
  | withdraw q pathId pt =>
    unfold State.step at hrun
    cases hpeer : s.upPeer q pt with
    | none =>
      simp only [hpeer] at hrun
      cases hrun
      exact ⟨le_rfl, nofun⟩
    | some peer =>
      simp only [hpeer] at hrun
      cases hrun
      exact ⟨(h.rdeUpdateWithdraw_removed _ _ _).clock.ge, nofun⟩
  | networkAdd pt state now =>
    obtain ⟨-, -, hclock⟩ := (h.clock now).networkAdd hrun
    rw [hclock]
    refine ⟨ht, fun u hu => ?_⟩
    obtain ⟨_, -, hu⟩ := Option.bind_eq_some_iff.mp hu
    obtain ⟨_, -, rfl⟩ := Option.map_eq_some_iff.mp hu
    rfl
  | networkDelete pt =>
    cases hrun
    exact ⟨(h.rdeUpdateWithdraw_removed _ _ _).clock.ge, nofun⟩
  | reload ribSize inRules filteredInLocrib =>
    cases hrun
    exact ⟨le_rfl, nofun⟩
  | softreconfigIn pt vstate reloaded now =>
    obtain ⟨-, -, hclock⟩ := (h.clock now).revalidate (List.Subset.refl _) hrun
    rw [hclock]
    exact ⟨ht, nofun⟩
  | rpkiSoftreload pt vstate now =>
    obtain ⟨-, -, hclock⟩ := (h.clock now).revalidate List.filter_sublist.subset hrun
    rw [hclock]
    exact ⟨ht, nofun⟩

/-- All paths of the Adj-RIB-In are older than the clock. -/
def Past (s : State ρ) : Prop := ∀ pt, ∀ p ∈ s.adjIn pt, p.lastchange ≤ s.clock

theorem Past.step (hpast : Past s) (h : PathInv s) {e : Event ρ} (ht : Timely s e)
    (hrun : s.step env e = .ok s') : Past s' := by
  obtain ⟨hle, hu⟩ := h.step_clock ht hrun
  intro pt p hp
  rcases (h.step hrun).2 pt p hp with hupd | ⟨-, x, hx, -, htime⟩
  · exact (hu _ hupd).le
  · rw [← htime]
    exact (hpast pt x hx).trans hle

/-- Updates of a run come after its start. -/
theorem lastUpdate_ge {es : List (Event ρ)} {k : PeerId × ℕ} {u : ℕ}
    (hrun : Run (rdeStep env) Timely s es s') (h : PathInv s)
    (hu : lastUpdate env pt k s es = some u) : s.clock ≤ u := by
  induction hrun with
  | nil s => cases hu
  | @cons s s₁ s' e es ht hstep _ ih =>
    have hstep' := step_of_rdeStep hstep
    obtain ⟨hle, hupd⟩ := h.step_clock ht hstep'
    rw [lastUpdate, hstep, Option.bind_some, Option.or_eq_some_iff] at hu
    rcases hu with hu | ⟨-, hu⟩
    · exact hle.trans (ih (h.step hstep').1 hu)
    · obtain ⟨v, hv, hif⟩ := Option.bind_eq_some_iff.mp hu
      split_ifs at hif
      cases hif
      rw [hupd v hv]
      exact hle

/-- A flush at the end of a graceful restart or a route refresh removes the paths that were not
    updated since it began. -/
theorem peerFlush_since {rules : ρ} {random : List ℕ} {es₀ es : List (Event ρ)} {s₀ : State ρ}
    {a : Aid} {now later : ℕ}
    (hrun₀ : Run (rdeStep env) Timely (State.init rules random) es₀ s₀)
    (htime : s₀.clock ≤ now ∧ now < later)
    (hbegin : s₁ = s₀.peerStale q a false now later ∨ s₁ = s₀.peerBeginRrefresh q a now later)
    (hrun : Run (rdeStep env) Timely s₁ es s) :
    p ∈ (s.peerFlush q (some a) (some now)).adjIn pt ↔ p ∈ s.adjIn pt ∧
      ¬(p.peer = q ∧ a = pt.aid ∧ lastUpdate env pt p.key s₁ es = none) := by
  have hkeep : ∀ (s : State ρ) (e : Event ρ) (s' : State ρ), PathInv s ∧ Past s → Timely s e →
      rdeStep env s e = some s' → PathInv s' ∧ Past s' := by
    intro s e s' hs ht hstep
    have hstep' := step_of_rdeStep hstep
    exact ⟨(hs.1.step hstep').1, hs.2.step hs.1 ht hstep'⟩
  obtain ⟨hinv₀, hpast₀⟩ := hrun₀.invariant hkeep
    ⟨PathInv.init rules random, fun pt p hp => by simp [State.init] at hp⟩
  have hages : PathInv s₁ ∧ Ages none s₀ s₁ ∧ s₁.clock = later := by
    rcases hbegin with rfl | rfl
    · obtain ⟨hinv, hages⟩ := hinv₀.peerStale q a false now later
      exact ⟨hinv, hages, hinv₀.peerStale_clock q a false now later⟩
    · obtain ⟨hinv, hages⟩ := hinv₀.peerBeginRrefresh q a now later
      exact ⟨hinv, hages, rfl⟩
  obtain ⟨hinv₁, hages, hclock⟩ := hages
  have hinv := hinv₁.run hrun
  rw [(hinv.peerFlush q (some a) (some now)).2.mem_adjIn]
  refine and_congr_right fun hp => not_congr ?_
  -- a path is stale exactly if nothing was said of it since
  have hold : p.lastchange ≤ now ↔ lastUpdate env pt p.key s₁ es = none := by
    rcases lastchange_eq hrun hinv₁ hp with hlast | ⟨hlast, x, hx, -, htime'⟩
    · have := lastUpdate_ge hrun hinv₁ hlast
      simp only [hlast, reduceCtorEq, iff_false]
      omega
    · simp only [hlast, iff_true]
      obtain hu | ⟨-, y, hy, -, hy'⟩ := hages pt x hx
      · cases hu
      · rw [← htime', ← hy']
        exact (hpast₀ pt y hy).trans htime.1
  rw [hinv.flushed_iff hp, ← hold]
  simp [State.isStale]

end Bgpd.Rde.Paths
