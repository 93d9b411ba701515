import Bgpd.Rde.DumpSpec

/-!
# Removal of RIBs

A reload removes RIBs while entries of them may be on the queues of peers and while walks
over them may be under way. `rib_free` drops the walks that have paused at an entry, but
neither those that have not started yet nor the entries on the queues.

## Main results

- `Narrows`: what the steps of a walk do to contexts and queues
- `rdeReloadDone_refs`: a reload leaves no reference to a removed RIB iff all of them were idle
- `reload_leaves_no_reference`: the same in every run
-/

namespace Bgpd.Rde.Dump

open Bgpd.Lib

variable {env : DumpEnv} {t t' : RibTree} {p : Ptr} {id : ℕ} {s s' s₁ : RibDumps}

/-! ## References -/

/-- Entries on queues belong to RIBs, and contexts walk over RIBs. -/
structure RefsOk (s : RibDumps) : Prop where
  queues : ∀ peer, ∀ x ∈ s.pq peer, (s.ribs x.1).isSome = true
  contexts : ∀ c ∈ s.dumps, c.ribCall = true → (s.ribs c.id).isSome = true

/-- No entry of the RIB is queued, and every walk over it has paused at an entry. -/
def RibIdle (s : RibDumps) (id : ℕ) : Prop :=
  (∀ peer, ∀ x ∈ s.pq peer, x.1 ≠ id) ∧
    ∀ c ∈ s.dumps, c.ribCall = true → c.id = id → c.re ≠ none

/-- The RIBs that a reload removes are idle. The default RIBs are never removed. -/
def ReloadOk (s : RibDumps) : DumpEvent → Prop
  | .reload delete => ∀ id ∈ delete, RibDumps.ribLocStart < id → RibIdle s id
  | _ => True

/-- What is fixed when a context is created. -/
def RibContext.key (c : RibContext) : Ptr × ℕ × Bool := (c.addr, c.id, c.ribCall)

/-- No RIB comes or goes, no context is new, and only entries of RIBs get queued. -/
structure Narrows (s s' : RibDumps) : Prop where
  dumps : (s'.dumps.map RibContext.key).Sublist (s.dumps.map RibContext.key)
  ribs : ∀ id, (s'.ribs id).isSome = (s.ribs id).isSome
  queued : ∀ peer, ∀ x ∈ s'.pq peer, (∃ peer', x ∈ s.pq peer') ∨ (s.ribs x.1).isSome = true

theorem Narrows.trans (h : Narrows s s₁) (h' : Narrows s₁ s') : Narrows s s' where
  dumps := h'.dumps.trans h.dumps
  ribs id := (h'.ribs id).trans (h.ribs id)
  queued peer x hx := by
    rcases h'.queued peer x hx with ⟨peer', hx⟩ | hx
    · exact h.queued peer' x hx
    · exact Or.inr (by rwa [h.ribs] at hx)

theorem Keeps.narrows (h : Keeps s s') : Narrows s s' where
  dumps := by rw [h.dumps]
  ribs := h.ribs
  queued := h.queued

theorem Freed.narrows {gone : List Ptr} (h : Freed gone s s') : Narrows s s' where
  dumps := by
    rw [h.dumps]
    exact List.filter_sublist.map _
  ribs := h.ribs
  queued peer x hx := Or.inl ⟨peer, by rwa [h.pq] at hx⟩

theorem setTree_narrows (ht : s.ribs id = some t) : Narrows s (s.setTree id t') where
  dumps := List.Sublist.refl _
  ribs id' := by
    rw [ribs_setTree]
    split
    · next hid =>
      rw [hid, ht]
      rfl
    · rfl
  queued peer _ hx := Or.inl ⟨peer, hx⟩

theorem setRe_narrows (addr : Ptr) (re : Option Ptr) : Narrows s (s.setRe addr re) where
  dumps := by
    have hsame : (s.setRe addr re).dumps.map RibContext.key = s.dumps.map RibContext.key := by
      show (List.map _ s.dumps).map _ = _
      rw [List.map_map]
      apply List.map_congr_left
      intro c _
      dsimp only [Function.comp]
      split <;> rfl
    rw [hsame]
  ribs _ := rfl
  queued peer _ hx := Or.inl ⟨peer, hx⟩

theorem dropContext_narrows (addr : Ptr) : Narrows s (s.dropContext addr) where
  dumps := List.filter_sublist.map _
  ribs _ := rfl
  queued peer _ hx := Or.inl ⟨peer, hx⟩

/-- A walk brings no RIB and no context. -/
theorem dumpWalk_narrows {upcall : RibDumps.Upcall} {ctx : RibContext} {todo : List Ptr} {i : ℕ}
    {paused : Option Ptr} (h : RibDumps.dumpWalk env upcall ctx todo i s = some (s', paused)) :
    Narrows s s' := by
  induction todo generalizing i s with
  | nil =>
    cases h
    exact (Keeps.refl _).narrows
  | cons p todo ih =>
    rw [RibDumps.dumpWalk] at h
    obtain ⟨t, ht, h⟩ := Option.bind_eq_some_iff.mp h
    obtain ⟨re, -, h⟩ := Option.bind_eq_some_iff.mp h
    split_ifs at h
    · exact ih h
    · exact ih h
    · cases h
      exact (Keeps.refl _).narrows
    · cases h
      exact setTree_narrows ht
    · obtain ⟨s₁, h₁, h⟩ := Option.bind_eq_some_iff.mp h
      exact (ribCall_keeps h₁).narrows.trans (ih h)

theorem ribDumpR_narrows {upcall : RibDumps.Upcall} {addr : Ptr}
    (h : s.ribDumpR env upcall addr = some s') : Narrows s s' := by
  unfold RibDumps.ribDumpR at h
  obtain ⟨ctx, -, h⟩ := Option.bind_eq_some_iff.mp h
  obtain ⟨t, ht, h⟩ := Option.bind_eq_some_iff.mp h
  obtain ⟨⟨t₁, todo⟩, -, h⟩ := Option.bind_eq_some_iff.mp h
  obtain ⟨⟨s₁, paused⟩, hwalk, h⟩ := Option.bind_eq_some_iff.mp h
  have hn : Narrows s s₁ :=
    ((setTree_narrows ht).trans (setRe_narrows addr none)).trans (dumpWalk_narrows hwalk)
  apply hn.trans
  cases paused with
  | none =>
    cases h
    exact dropContext_narrows addr
  | some p =>
    cases h
    exact setRe_narrows addr (some p)

/-! ## The invariant -/

/-- No reference to a RIB that is gone, and no two contexts at one address. -/
structure RefsInv (s : RibDumps) : Prop extends RefsOk s where
  addrs : (s.dumps.map (·.addr)).Nodup

theorem RefsInv.init : RefsInv {} := ⟨⟨by simp, by simp⟩, List.nodup_nil⟩

theorem RefsInv.narrows (hi : RefsInv s) (hn : Narrows s s') : RefsInv s' := by
  have haddr : ∀ l : List RibContext, l.map (·.addr) = (l.map RibContext.key).map (·.1) := by
    intro l
    rw [List.map_map]
    rfl
  refine ⟨⟨fun peer x hx => ?_, fun c hc hcall => ?_⟩, ?_⟩
  · rw [hn.ribs]
    rcases hn.queued peer x hx with ⟨peer', hx⟩ | hx
    · exact hi.queues peer' x hx
    · exact hx
  · obtain ⟨d, hd, hkey⟩ := List.mem_map.mp (hn.dumps.subset (List.mem_map_of_mem hc))
    simp only [RibContext.key, Prod.mk.injEq] at hkey
    rw [hn.ribs, ← hkey.2.1]
    exact hi.contexts d hd (hkey.2.2.trans hcall)
  · rw [haddr]
    apply List.Nodup.sublist (hn.dumps.map _)
    rw [← haddr]
    exact hi.addrs

theorem RefsInv.insert (hi : RefsInv s) {ctx : RibContext}
    (hfresh : ctx.addr ∉ s.dumps.map (·.addr))
    (hrib : ctx.ribCall = true → (s.ribs ctx.id).isSome = true) :
    RefsInv { s with dumps := ctx :: s.dumps } := by
  refine ⟨⟨hi.queues, fun c hc hcall => ?_⟩, List.nodup_cons.mpr ⟨hfresh, hi.addrs⟩⟩
  rcases List.mem_cons.mp hc with rfl | hc
  · exact hrib hcall
  · exact hi.contexts c hc hcall

theorem RefsInv.dumpInsert (hi : RefsInv s) {upcall : RibDumps.Upcall} {ctx : RibContext}
    (hrib : (s.ribs ctx.id).isSome = true) (h : s.dumpInsert env upcall ctx = some s') :
    RefsInv s' := by
  unfold RibDumps.dumpInsert at h
  split_ifs at h with hfresh hcount
  · exact (hi.insert hfresh fun _ => hrib).narrows (ribDumpR_narrows h)
  · cases h
    exact hi.insert hfresh fun _ => hrib

theorem RefsInv.ribDumpNew (hi : RefsInv s) {upcall : RibDumps.Upcall} {addr : Ptr}
    {aid : Option Aid} {count arg : ℕ}
    (h : s.ribDumpNew env upcall addr id aid count arg = some s') : RefsInv s' := by
  unfold RibDumps.ribDumpNew at h
  obtain ⟨t, ht, h⟩ := Option.bind_eq_some_iff.mp h
  exact hi.dumpInsert (by simp [ht]) h

theorem RefsInv.ribDumpSubtree (hi : RefsInv s) {upcall : RibDumps.Upcall} {addr : Ptr}
    {subtree : BgpdAddr} {len count arg : ℕ}
    (h : s.ribDumpSubtree env upcall addr id subtree len count arg = some s') : RefsInv s' := by
  unfold RibDumps.ribDumpSubtree at h
  obtain ⟨t, ht, h⟩ := Option.bind_eq_some_iff.mp h
  cases hre : treeNfind env t (env.ptFill subtree len) with
  | none =>
    rw [hre] at h
    exact hi.dumpInsert (by simp [ht]) h
  | some re =>
    rw [hre] at h
    apply (hi.narrows (setTree_narrows ht)).dumpInsert _ h
    show ((s.setTree id _).ribs id).isSome = true
    rw [ribs_setTree, if_pos rfl]
    rfl

theorem RefsInv.ribNew (hi : RefsInv s) (h : s.ribNew id = some s') : RefsInv s' := by
  unfold RibDumps.ribNew at h
  split_ifs at h
  cases h
  have hmono : ∀ id', (s.ribs id').isSome = true → ((s.setTree id []).ribs id').isSome = true := by
    intro id' h'
    rw [ribs_setTree]
    split
    · rfl
    · exact h'
  exact ⟨⟨fun peer x hx => hmono _ (hi.queues peer x hx),
    fun c hc hcall => hmono _ (hi.contexts c hc hcall)⟩, hi.addrs⟩

/-! ## Reloads -/

/-- What `rib_free` leaves: the RIB is gone unless it is a default one, the queues are as
    before, and of the contexts of this RIB those that hold no entry. -/
theorem ribFree_spec (haddrs : (s.dumps.map (·.addr)).Nodup) (h : s.ribFree id = some s') :
    s'.pq = s.pq ∧
      s'.dumps = s.dumps.filter (fun c => !decide (c.id = id ∧ c.re ≠ none)) ∧
      ∀ id', (s'.ribs id').isSome =
        ((s.ribs id').isSome && !decide (RibDumps.ribLocStart < id ∧ id' = id)) := by
  unfold RibDumps.ribFree at h
  obtain ⟨s₁, h₁, h⟩ := Option.bind_eq_some_iff.mp h
  obtain ⟨t, ht, h⟩ := Option.bind_eq_some_iff.mp h
  have hfreed := freeAll_freed h₁
  have hdumps := freeFilter_dumps haddrs h₁
  split_ifs at h with hdefault
  · cases h
    refine ⟨hfreed.pq, hdumps, fun id' => ?_⟩
    rw [(setTree_narrows ht).ribs, hfreed.ribs]
    simp [Nat.not_lt.mpr hdefault]
  · cases h
    refine ⟨hfreed.pq, hdumps, fun id' => ?_⟩
    show (Function.update s₁.ribs id none id').isSome = _
    rw [Function.update_apply]
    split
    · next hid => simp [hid, Nat.lt_of_not_le hdefault]
    · next hid => simp [hid, hfreed.ribs]

/-- What a reload leaves. -/
theorem rdeReloadDone_spec {delete : List ℕ} (haddrs : (s.dumps.map (·.addr)).Nodup)
    (h : s.rdeReloadDone delete = some s') :
    s'.pq = s.pq ∧
      s'.dumps = s.dumps.filter (fun c => !decide (c.id ∈ delete ∧ c.re ≠ none)) ∧
      ∀ id, (s'.ribs id).isSome =
        ((s.ribs id).isSome && !decide (RibDumps.ribLocStart < id ∧ id ∈ delete)) := by
  unfold RibDumps.rdeReloadDone at h
  induction delete generalizing s with
  | nil =>
    cases h
    simp
  | cons id delete ih =>
    rw [List.foldlM_cons] at h
    obtain ⟨s₁, h₁, h⟩ := Option.bind_eq_some_iff.mp h
    obtain ⟨hpq, hdumps, hribs⟩ := ribFree_spec haddrs h₁
    have haddrs₁ : (s₁.dumps.map (·.addr)).Nodup := by
      rw [hdumps]
      exact haddrs.sublist (List.filter_sublist.map _)
    obtain ⟨hpq', hdumps', hribs'⟩ := ih haddrs₁ h
    refine ⟨hpq'.trans hpq, ?_, fun id' => ?_⟩
    · rw [hdumps', hdumps, List.filter_filter]
      apply List.filter_congr
      intro c _
      by_cases hid : c.id = id <;> by_cases hre : c.re = none <;> simp [hid, hre]
    · rw [hribs', hribs]
      by_cases hid : id' = id
      · subst hid
        by_cases hloc : RibDumps.ribLocStart < id' <;> simp [hloc]
      · simp [hid]

/-- A reload leaves no reference to a removed RIB iff all of them were idle. -/
theorem rdeReloadDone_refs (hi : RefsInv s) {delete : List ℕ}
    (h : s.rdeReloadDone delete = some s') : RefsOk s' ↔ ReloadOk s (.reload delete) := by
  obtain ⟨hpq, hdumps, hribs⟩ := rdeReloadDone_spec hi.addrs h
  constructor
  · intro hok id hid hloc
    have hgone : (s'.ribs id).isSome = false := by simp [hribs, hid, hloc]
    refine ⟨fun peer x hx heq => ?_, fun c hc hcall heq hre => ?_⟩
    · rw [← hpq] at hx
      have := hok.queues peer x hx
      rw [heq, hgone] at this
      cases this
    · -- a context that holds no entry is still there
      have hleft : c ∈ s'.dumps := by
        rw [hdumps]
        exact List.mem_filter.mpr ⟨hc, by simp [hre]⟩
      have := hok.contexts c hleft hcall
      rw [heq, hgone] at this
      cases this
  · intro hidle
    refine ⟨fun peer x hx => ?_, fun c hc hcall => ?_⟩
    · rw [hpq] at hx
      have hrib := hi.queues peer x hx
      rw [hribs, hrib, Bool.true_and, Bool.not_eq_true', decide_eq_false_iff_not]
      rintro ⟨hloc, hid⟩
      exact (hidle x.1 hid hloc).1 peer x hx rfl
    · rw [hdumps] at hc
      obtain ⟨hc, hkept⟩ := List.mem_filter.mp hc
      have hrib := hi.contexts c hc hcall
      rw [hribs, hrib, Bool.true_and, Bool.not_eq_true', decide_eq_false_iff_not]
      rintro ⟨hloc, hid⟩
      have hre := (hidle c.id hid hloc).2 c hc hcall rfl
      simp [hid, hre] at hkept

theorem RefsInv.rdeReloadDone (hi : RefsInv s) {delete : List ℕ}
    (hok : ReloadOk s (.reload delete)) (h : s.rdeReloadDone delete = some s') : RefsInv s' := by
  refine ⟨(rdeReloadDone_refs hi h).mpr hok, ?_⟩
  rw [(rdeReloadDone_spec hi.addrs h).2.1]
  exact hi.addrs.sublist (List.filter_sublist.map _)

/-! ## Runs -/

theorem RefsInv.step {e : DumpEvent} (hi : RefsInv s) (he : ReloadOk s e)
    (h : dumpStep env s e = some s') : RefsInv s' := by
  cases e with
  | ribNew id => exact hi.ribNew h
  | entryOp id pt op => exact hi.narrows (entryOp_keeps h).narrows
  | processUpdates peer => exact hi.narrows (peerProcessUpdates_keeps h).narrows
  | peerDelete peer =>
    cases h
    exact hi.narrows (peerDelete_keeps peer).narrows
  | dumpNew upcall addr id aid count arg => exact hi.ribDumpNew h
  | dumpSubtree upcall addr id subtree len count arg => exact hi.ribDumpSubtree h
  | adjoutDumpNew addr id arg =>
    simp only [dumpStep, RibDumps.adjoutPrefixDumpNew] at h
    split_ifs at h with hfresh
    cases h
    exact hi.insert hfresh (by simp)
  | dumpR upcall addr => exact hi.narrows (ribDumpR_narrows h)
  | terminate arg => exact hi.narrows (freeAll_freed h).narrows
  | reload delete => exact hi.rdeReloadDone he h

/-- In every run in which reloads only remove idle RIBs, the entries on queues belong to RIBs
    and the contexts walk over RIBs that exist. In the states of such a run, a reload keeps it
    that way iff the RIBs that it removes are idle. -/
theorem reload_leaves_no_reference {es : List DumpEvent}
    (h : Run (dumpStep env) ReloadOk {} es s) :
    RefsOk s ∧ ∀ delete s', s.rdeReloadDone delete = some s' →
      (RefsOk s' ↔ ReloadOk s (.reload delete)) := by
  have hinv : RefsInv s := h.invariant (fun _ _ _ hi he hs => hi.step he hs) RefsInv.init
  exact ⟨hinv.toRefsOk, fun _ _ hs => rdeReloadDone_refs hinv hs⟩

/-- Peer 1 has processed its queue and the walk over the RIB has paused, so that the RIB can
    be removed. -/
theorem reload_leaves_no_reference_sample :
    ∃ s s', Run (dumpStep sampleEnv) ReloadOk {}
        [.ribNew 2, .entryOp 2 (samplePt 1) { add := some 1, enqueue := some 1 },
          .dumpSubtree (fun _ => []) 1 2 sampleSubtree 8 1 1, .processUpdates 1] s ∧
      s.rdeReloadDone [2] = some s' ∧ (∃ c ∈ s.dumps, c.re = some 1) ∧ RefsOk s ∧ RefsOk s' := by
  have hrun : ∃ s, Run (dumpStep sampleEnv) ReloadOk {}
        [.ribNew 2, .entryOp 2 (samplePt 1) { add := some 1, enqueue := some 1 },
          .dumpSubtree (fun _ => []) 1 2 sampleSubtree 8 1 1, .processUpdates 1] s ∧
      s.pq = Function.update (Function.update (fun _ => [] : PeerId → List (ℕ × Ptr)) 1 [(2, 1)])
        1 [] ∧
      (s.rdeReloadDone [2]).isSome = true ∧ (∃ c ∈ s.dumps, c.re = some 1) ∧
      ∀ c ∈ s.dumps, c.re ≠ none :=
    ⟨_, Run.cons trivial rfl (Run.cons trivial rfl (Run.cons trivial rfl
      (Run.cons trivial rfl (Run.nil _)))), rfl, by decide, by decide, by decide⟩
  obtain ⟨s, hrun, hpq, hreload, hpaused, hall⟩ := hrun
  obtain ⟨s', hs'⟩ := Option.isSome_iff_exists.mp hreload
  have hmain := reload_leaves_no_reference hrun
  refine ⟨s, s', hrun, hs', hpaused, hmain.1, (hmain.2 _ _ hs').mpr ?_⟩
  intro id _ _
  refine ⟨fun peer x hx => ?_, fun c hc _ _ => hall c hc⟩
  rw [hpq] at hx
  by_cases hpeer : peer = 1 <;> simp [hpeer] at hx

/-- The reload removes a RIB of which an entry is queued and over which a walk has not
    started. Both are still there then. -/
theorem reload_reference_left :
    ∃ s, Run (dumpStep sampleEnv) (fun _ _ => True) {}
        [.ribNew 2, .entryOp 2 (samplePt 1) { add := some 1, enqueue := some 1 },
          .dumpNew (fun _ => []) 1 2 none 1 1, .reload [2]] s ∧
      (∃ x ∈ s.pq 1, (s.ribs x.1).isSome = false) ∧
        ∃ c ∈ s.dumps, c.ribCall = true ∧ (s.ribs c.id).isSome = false :=
  exists_run (dumpStep sampleEnv) (fun _ _ => True) {} _
    (fun s => (∃ x ∈ s.pq 1, (s.ribs x.1).isSome = false) ∧
      ∃ c ∈ s.dumps, c.ribCall = true ∧ (s.ribs c.id).isSome = false) (by decide)

end Bgpd.Rde.Dump
