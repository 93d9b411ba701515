import Bgpd.Lib.Run
import Bgpd.Rde.PendingSpec
import Bgpd.Rde.Scratch

/-!
# Pending Updates in Runs with Reloads

The invariant of pending entries is kept by all events of the RDE, and by reloads that wait for the
queues.

## Main results

- `SameRibs`: what the Adj-RIB-Out and the sessions leave alone
- `PqInv.step`: what every event keeps
- `pending_entries_live`: when pending entries point to listed paths
-/

namespace Bgpd.Rde

open Bgpd.Lib

variable {cfg : RdeConfig} {s s' : RdeState} {rib : ℕ} {pt : PtEntry} {re : RibEntry}
  {ev : Evaluation} {evalAll armed : Bool} {selfId : ℕ} {h h' : List Prefix} {freed : ℕ → Bool}

/-! ## What does not change the RIBs -/

/-- The entries and the queues are the same. -/
structure SameRibs (s s' : RdeState) : Prop where
  entry : s'.entry = s.entry
  evalAll : s'.evalAll = s.evalAll
  nextPtr : s'.nextPtr = s.nextPtr
  keys : s.keys ⊆ s'.keys
  ribPq : ∀ q, (s'.peers q).ribPq = (s.peers q).ribPq

theorem SameRibs.refl (s : RdeState) : SameRibs s s :=
  ⟨rfl, rfl, rfl, List.Subset.refl _, fun _ => rfl⟩

theorem SameRibs.trans {s₁ : RdeState} (h : SameRibs s s₁) (h' : SameRibs s₁ s') :
    SameRibs s s' where
  entry := h'.entry.trans h.entry
  evalAll := h'.evalAll.trans h.evalAll
  nextPtr := h'.nextPtr.trans h.nextPtr
  keys _ hk := h'.keys (h.keys hk)
  ribPq q := (h'.ribPq q).trans (h.ribPq q)

theorem QueueInv.congr (hq : QueueInv s) (hentry : s'.entry = s.entry)
    (hpq : ∀ q, (s'.peers q).ribPq = (s.peers q).ribPq) : QueueInv s' where
  queued rib pt hm := by
    obtain ⟨q, hmem⟩ := hq.queued rib pt (hentry ▸ hm)
    exact ⟨q, (hpq q).symm ▸ hmem⟩
  mode q e he := hentry ▸ hq.mode q e (hpq q ▸ he)
  nodup q := hpq q ▸ hq.nodup q
  unique q q' e he he' := hq.unique q q' e (hpq q ▸ he) (hpq q' ▸ he')

theorem PendingInv.sameRibs (hi : PendingInv selfId freed cfg s) (h : SameRibs s s') :
    PendingInv selfId freed cfg s' where
  entry rib pt := by
    rw [armedAt, h.evalAll, h.entry]
    exact hi.entry rib pt
  old := by
    rw [h.entry, h.nextPtr]
    exact hi.old
  keys rib pt hne := h.keys (hi.keys rib pt (h.entry ▸ hne))
  flow := by
    rw [h.entry]
    exact hi.flow
  gone := by
    rw [h.entry]
    exact hi.gone
  queue := hi.queue.congr h.entry h.ribPq

variable {q : PeerId} {peer : RdePeer}

/-- A peer changes, but not its queue. -/
theorem sameRibs_setPeer (hpq : peer.ribPq = (s.peers q).ribPq) :
    SameRibs s (s.setPeer q peer) where
  entry := rfl
  evalAll := rfl
  nextPtr := rfl
  keys := List.Subset.refl _
  ribPq p := by
    unfold RdeState.setPeer
    dsimp only
    split_ifs with h
    · rw [h, hpq]
    · rfl

theorem sameRibs_setAdjout (s : RdeState) (pt : PtEntry) (arr : List AdjoutPrefix) :
    SameRibs s (s.setAdjout pt arr) := ⟨rfl, rfl, rfl, List.Subset.refl _, fun _ => rfl⟩

theorem sameRibs_dumps (s : RdeState) (dumps : List RibContext) :
    SameRibs s { s with dumps := dumps } := ⟨rfl, rfl, rfl, List.Subset.refl _, fun _ => rfl⟩

theorem sameRibs_setOut (s : RdeState) (q : PeerId) (pt : PtEntry) (out : Out) :
    SameRibs s (s.setOut q pt out) :=
  (sameRibs_setAdjout s pt out.adjout).trans (sameRibs_setPeer rfl)

theorem sameRibs_addKey (s : RdeState) (pt : PtEntry) : SameRibs s (s.addKey pt) := by
  unfold RdeState.addKey
  split_ifs
  · exact SameRibs.refl s
  · exact ⟨rfl, rfl, rfl, fun k hk => mem_insertKey.mpr (Or.inr hk), fun _ => rfl⟩

theorem sameRibs_foldl {α : Type} {f : RdeState → α → RdeState} (hf : ∀ s x, SameRibs s (f s x))
    (l : List α) (s : RdeState) : SameRibs s (l.foldl f s) := by
  induction l generalizing s with
  | nil => exact SameRibs.refl s
  | cons x l ih => exact (hf s x).trans (ih (f s x))

theorem sameRibs_peerGenerateUpdate {rib : ℕ} {mode : EvalMode}
    (h : s.peerGenerateUpdate cfg rib pt mode q = .ok s') : SameRibs s s' := by
  unfold RdeState.peerGenerateUpdate at h
  dsimp only at h
  split_ifs at h
  · cases hgen : upGenerate (s.upEnv cfg) (s.peers q).toOutParams pt
      (prefixChain (cfg.ribFlags rib) (s.entry rib pt).prefixH) (s.entry rib pt).queued mode
        (s.out q pt) with
    | error f =>
      rw [hgen] at h
      cases h
    | ok out =>
      rw [hgen] at h
      obtain rfl := Except.ok.inj h
      exact sameRibs_setOut s q pt out
  · obtain rfl := Except.ok.inj h
    exact SameRibs.refl s

theorem sameRibs_generateAll {rib : ℕ} {mode : EvalMode} {l : List PeerId}
    (h : s.generateAll cfg rib pt mode l = .ok s') : SameRibs s s' := by
  induction l generalizing s with
  | nil =>
    obtain rfl := Except.ok.inj h
    exact SameRibs.refl s
  | cons q l ih =>
    obtain ⟨s₁, hgen, h⟩ := except_bind_ok h
    exact (sameRibs_peerGenerateUpdate hgen).trans (ih h)

theorem sameRibs_dumpUpcall {rib : ℕ} (h : s.dumpUpcall cfg q rib pt = .ok s') :
    SameRibs s s' := by
  unfold RdeState.dumpUpcall at h
  split at h
  · obtain rfl := Except.ok.inj h
    exact SameRibs.refl s
  · obtain ⟨s₁, hgen, h⟩ := except_bind_ok h
    obtain rfl := Except.ok.inj h
    exact (sameRibs_peerGenerateUpdate hgen).trans (sameRibs_setAdjout ..)

theorem sameRibs_blastUpcall (s : RdeState) (q : PeerId) (pt : PtEntry) :
    SameRibs s (s.blastUpcall q pt) := by
  unfold RdeState.blastUpcall RdeState.collect
  refine SameRibs.trans ?_ (sameRibs_setAdjout _ pt _)
  exact sameRibs_setPeer rfl

theorem sameRibs_dumpWalk {ctx : RibContext} {n : ℕ} {l : List PtEntry} {pos : Option PtEntry}
    (h : RdeState.dumpWalk cfg ctx n l s = .ok (pos, s')) : SameRibs s s' := by
  induction l generalizing s n with
  | nil =>
    unfold RdeState.dumpWalk at h
    obtain ⟨-, rfl⟩ := Prod.mk.inj (Except.ok.inj h)
    exact SameRibs.refl s
  | cons k l ih =>
    unfold RdeState.dumpWalk at h
    split_ifs at h
    · exact ih h
    · cases n with
      | zero =>
        obtain ⟨-, rfl⟩ := Prod.mk.inj (Except.ok.inj h)
        exact SameRibs.refl s
      | succ n =>
        obtain ⟨s₁, hcall, h⟩ := except_bind_ok h
        refine SameRibs.trans ?_ (ih h)
        unfold RdeState.dumpCall at hcall
        split at hcall
        · exact sameRibs_dumpUpcall hcall
        · obtain rfl := Except.ok.inj hcall
          exact sameRibs_blastUpcall ..

theorem sameRibs_dumpDone (s : RdeState) (q : PeerId) (aid : Aid) :
    SameRibs s (s.dumpDone q aid) := sameRibs_setPeer rfl

theorem sameRibs_ribDumpR {i n : ℕ} (h : s.ribDumpR cfg i n = .ok s') : SameRibs s s' := by
  unfold RdeState.ribDumpR at h
  split at h
  · obtain rfl := Except.ok.inj h
    exact SameRibs.refl s
  · obtain ⟨⟨pos, s₁⟩, hwalk, h⟩ := except_bind_ok h
    have hsame := sameRibs_dumpWalk hwalk
    dsimp only at h
    split at h
    · obtain rfl := Except.ok.inj h
      exact hsame.trans (sameRibs_dumps s₁ _)
    · obtain rfl := Except.ok.inj h
      exact (hsame.trans (sameRibs_dumps s₁ _)).trans (sameRibs_dumpDone _ _ _)

theorem sameRibs_stopOutput (s : RdeState) (q : PeerId) : SameRibs s (s.stopOutput q) := by
  refine SameRibs.trans ?_ (sameRibs_setPeer rfl)
  exact (sameRibs_foldl (fun s ctx => sameRibs_dumpDone s _ _) _ s).trans (sameRibs_dumps _ _)

theorem sameRibs_flowspecDump {l : List PtEntry} (h : s.flowspecDump cfg q l = .ok s') :
    SameRibs s s' := by
  induction l generalizing s with
  | nil =>
    obtain rfl := Except.ok.inj h
    exact SameRibs.refl s
  | cons k l ih =>
    obtain ⟨s₁, hcall, h⟩ := except_bind_ok h
    exact (sameRibs_dumpUpcall hcall).trans (ih h)

theorem sameRibs_dumpDefault {aid : Aid} (h : s.dumpDefault cfg q aid = .ok s') :
    SameRibs s s' := by
  obtain ⟨out, -, rfl⟩ := except_map_ok h
  exact (sameRibs_addKey s (defaultPt aid)).trans (sameRibs_setOut _ _ _ _)

theorem sameRibs_peerDump {aid : Aid} (h : s.peerDump cfg q aid = .ok s') : SameRibs s s' := by
  have hthrottle : SameRibs s (s.throttle q) := sameRibs_setPeer rfl
  unfold RdeState.peerDump at h
  dsimp only at h
  refine hthrottle.trans ?_
  split at h
  · obtain rfl := Except.ok.inj h
    exact sameRibs_dumpDone _ _ _
  · obtain ⟨s₁, hdump, rfl⟩ := except_map_ok h
    exact (sameRibs_dumpDefault hdump).trans (sameRibs_dumpDone _ _ _)
  · split_ifs at h
    · obtain ⟨s₁, hdump, rfl⟩ := except_map_ok h
      exact (sameRibs_flowspecDump hdump).trans (sameRibs_dumpDone _ _ _)
    · obtain rfl := Except.ok.inj h
      exact sameRibs_dumps _ _

theorem sameRibs_startDumps {forceSync : Bool} {l : List Aid}
    (h : s.startDumps cfg q forceSync l = .ok s') : SameRibs s s' := by
  induction l generalizing s with
  | nil =>
    obtain rfl := Except.ok.inj h
    exact SameRibs.refl s
  | cons aid l ih =>
    unfold RdeState.startDumps at h
    split_ifs at h
    · exact ih h
    · obtain ⟨s₁, hdump, h⟩ := except_bind_ok h
      exact (sameRibs_peerDump hdump).trans (ih h)
    · exact (sameRibs_dumps s _).trans (ih h)

theorem sameRibs_sendMsg (s : RdeState) (q : PeerId) (aid : Aid) (pend : PendQueue)
    (msg : List UpdateMsg) : SameRibs s (s.sendMsg q aid pend msg) := sameRibs_setPeer rfl

theorem sameRibs_upDumpWithdraws (s : RdeState) (q : PeerId) (aid : Aid) (n : ℕ) :
    SameRibs s (s.upDumpWithdraws q aid n) := by
  unfold RdeState.upDumpWithdraws
  dsimp only
  split_ifs
  · exact sameRibs_sendMsg ..
  · exact SameRibs.refl s

theorem sameRibs_upDumpUpdate (s : RdeState) (q : PeerId) (aid : Aid) (n : ℕ) :
    SameRibs s (s.upDumpUpdate q aid n) := by
  unfold RdeState.upDumpUpdate
  dsimp only
  split_ifs
  · split
    · exact SameRibs.refl s
    · split_ifs
      all_goals exact sameRibs_sendMsg ..
  · exact SameRibs.refl s

/-! ## The events of the RDE -/

/-- `peer_flush` -/
theorem PendingInv.peerFlush (hi : PendingInv selfId freed cfg s) (peer : PeerId) (aid : Option Aid)
    (staletime : Option ℕ) : PendingInv selfId freed cfg (s.peerFlush cfg peer aid staletime) :=
  (PendingInv.foldl (fun _ hs pt _ => hs.flushEntry peer staletime pt) hi).sameRibs
    (sameRibs_setPeer rfl)

/-- `peer_down` -/
theorem PendingInv.peerDown (hi : PendingInv selfId freed cfg s) (q : PeerId) :
    PendingInv selfId freed cfg (s.peerDown cfg q) := by
  have hdown : SameRibs s (s.setDown q) := sameRibs_setPeer rfl
  exact (hi.sameRibs (hdown.trans (sameRibs_stopOutput _ q))).peerFlush q none none

/-- `peer_stale` -/
theorem PendingInv.peerStale (hi : PendingInv selfId freed cfg s) (q : PeerId) (aid : Aid)
    (flushall : Bool) (now : ℕ) :
    PendingInv selfId freed cfg (s.peerStale cfg q aid flushall now) := by
  have hstaler : PendingInv selfId freed cfg (s.flushStaler cfg q aid) := by
    unfold RdeState.flushStaler
    split
    · exact hi.peerFlush q _ _
    · exact hi
  have hstale : SameRibs (s.flushStaler cfg q aid) ((s.flushStaler cfg q aid).setStale q aid now) :=
    sameRibs_setPeer rfl
  have hstop := hstaler.sameRibs (hstale.trans (sameRibs_stopOutput _ q))
  unfold RdeState.peerStale
  dsimp only
  split_ifs
  · exact hstop.peerFlush q (some aid) none
  · exact hstop

/-- `rde_eval_all` is switched on. -/
theorem PendingInv.evalAllOn (hi : PendingInv selfId freed cfg s) (b : Bool) :
    PendingInv selfId freed cfg { s with evalAll := s.evalAll || b } :=
  { hi with
    entry := fun rib pt =>
      { hi.entry rib pt with
        armed := fun e he hsome => by
          have harm := (hi.entry rib pt).armed e he hsome
          rw [armedAt, Bool.and_eq_true] at harm ⊢
          exact ⟨by rw [harm.1, Bool.true_or], harm.2⟩ }
    queue := { hi.queue with } }

/-- `peer_up` -/
theorem PendingInv.peerUp (hi : PendingInv selfId freed cfg s) {sup : SessionUp}
    (h : s.peerUp cfg q sup = .ok s') : PendingInv selfId freed cfg s' := by
  unfold RdeState.peerUp at h
  obtain ⟨s₁, hdumps, h⟩ := except_bind_ok h
  obtain rfl := Except.ok.inj h
  refine PendingInv.evalAllOn ?_ _
  have hdown : PendingInv selfId freed cfg
      (if (s.peers q).state = .err then s.peerDown cfg q else s) := by
    split_ifs
    · exact hi.peerDown q
    · exact hi
  refine hdown.sameRibs (SameRibs.trans ?_ (sameRibs_startDumps hdumps))
  exact sameRibs_setPeer rfl

/-- `peer_process_updates` -/
theorem PendingInv.peerProcessUpdates (hi : PendingInv selfId freed cfg s)
    (h : s.peerProcessUpdates cfg q = .ok s') : PendingInv selfId freed cfg s' := by
  rcases peerProcessUpdates_cases h with
    rfl | ⟨rib, k, rest, hpq, ⟨hnone, -⟩ | ⟨mode, s₁, -, hgen, rfl⟩⟩
  · exact hi
  · have hmem : (rib, k) ∈ (s.peers q).ribPq := hpq ▸ List.mem_cons_self
    exact absurd hnone (hi.queue.mode q _ hmem)
  · have hsame : SameRibs (s.popQueue q rest) (s₁.collect k) :=
      (sameRibs_generateAll hgen).trans (sameRibs_setAdjout ..)
    generalize s₁.collect k = s₂ at hsame
    have hentry : ∀ r k', (s₂.ribPqDequeue rib k).entry r k' = if r = rib ∧ k' = k then
        { s.entry rib k with pq := [], pqMode := none } else s.entry r k' := by
      intro r k'
      rw [RdeState.ribPqDequeue, setEntry_entry, hsame.entry]
      rfl
    have hqueue : ∀ p, ((s₂.ribPqDequeue rib k).peers p).ribPq =
        if p = q then rest else (s.peers p).ribPq := by
      intro p
      refine (hsame.ribPq p).trans ?_
      unfold RdeState.popQueue RdeState.setPeer
      dsimp only
      split_ifs <;> rfl
    have hhead : (rib, k) ∈ (s.peers q).ribPq := hpq ▸ List.mem_cons_self
    have hnd := hi.queue.nodup q
    rw [hpq] at hnd
    -- what is in a queue was in it before, and is another entry
    have hin : ∀ p, ∀ e ∈ ((s₂.ribPqDequeue rib k).peers p).ribPq,
        e ∈ (s.peers p).ribPq ∧ e ≠ (rib, k) := by
      intro p e he
      rw [hqueue] at he
      split_ifs at he with hp
      · subst hp
        refine ⟨hpq ▸ List.mem_cons_of_mem _ he, ?_⟩
        rintro rfl
        exact (List.nodup_cons.mp hnd).1 he
      · refine ⟨he, ?_⟩
        rintro rfl
        exact hp (hi.queue.unique p q _ he hhead)
    -- the entry of the pair is empty now, the others are as they were
    refine ⟨fun r k' => ?_, fun r k' => ?_, fun r k' => ?_, fun r k' => ?_, fun r k' => ?_,
      fun r k' hm => ?_, fun p e he => ?_, fun p => ?_, fun p p' e he he' => ?_⟩
    · rw [armedAt, show (s₂.ribPqDequeue rib k).evalAll = s.evalAll from hsame.evalAll, hentry]
      split_ifs with heq
      · obtain ⟨rfl, rfl⟩ := heq
        exact ⟨(hi.entry r k').keys, List.nodup_nil, List.forall_mem_nil _, List.forall_mem_nil _,
          fun _ => rfl⟩
      · exact hi.entry r k'
    · rw [show (s₂.ribPqDequeue rib k).nextPtr = s.nextPtr from hsame.nextPtr, hentry]
      split_ifs with heq
      · exact hi.old rib k
      · exact hi.old r k'
    · intro hne
      refine hsame.keys (hi.keys r k' ?_)
      rw [hentry] at hne
      split_ifs at hne with heq
      · rw [heq.1, heq.2]
        exact hne
      · exact hne
    · rw [hentry]
      split_ifs with heq
      · rw [heq.1, heq.2]
        exact hi.flow rib k
      · exact hi.flow r k'
    · rw [hentry]
      split_ifs with heq
      · rw [heq.1]
        exact hi.gone rib k
      · exact hi.gone r k'
    · rw [hentry] at hm
      split_ifs at hm with heq
      · exact absurd rfl hm
      -- an entry that is still queued is in the queue it was in
      · obtain ⟨p, hp⟩ := hi.queue.queued r k' hm
        refine ⟨p, ?_⟩
        rw [hqueue]
        split_ifs with hpp
        · subst hpp
          rw [hpq] at hp
          exact (List.mem_cons.mp hp).resolve_left fun hx => heq (Prod.mk.inj hx)
        · exact hp
    · rw [hentry, if_neg fun heq => (hin p e he).2 (Prod.ext heq.1 heq.2)]
      exact hi.queue.mode p e (hin p e he).1
    · rw [hqueue]
      split_ifs
      · exact (List.nodup_cons.mp hnd).2
      · exact hi.queue.nodup p
    · exact hi.queue.unique p p' e (hin p e he).1 (hin p' e he').1

/-- Every event of the RDE. -/
theorem PendingInv.rdeEvent {σ : PqState} {e : Event} (hi : PendingInv selfId σ.freed σ.cfg σ.rde)
    (hal : σ.allows e = true) (h : rdeStep σ.cfg σ.rde e = some s') :
    PendingInv selfId σ.freed σ.cfg s' := by
  have hstep : σ.rde.step σ.cfg e = .ok s' := rdeStep_eq h
  rw [PqState.allows, Bool.and_eq_true] at hal
  have htarget : ∀ x ∈ e.target, σ.freed x.1 = false ∧ x.2.aid.isFlowspec = false := by
    intro x hx
    have hall := hal.1
    rw [Option.all_eq_true] at hall
    simpa using hall x hx
  cases e with
  | update a => exact hi.prefixUpdate (htarget _ rfl).2 (htarget _ rfl).1 hstep
  | withdraw rib peer pathId pt =>
    obtain rfl := Except.ok.inj hstep
    exact hi.prefixWithdraw (htarget _ rfl).2 rib peer pathId
  | flush peer aid staletime =>
    obtain rfl := Except.ok.inj hstep
    exact hi.peerFlush peer aid staletime
  | nexthop rib pt p state oldstate =>
    obtain rfl := Except.ok.inj hstep
    exact hi.evaluateNexthop (htarget _ rfl).2 rib p state oldstate
  | process q => exact hi.peerProcessUpdates hstep
  | dump i n => exact hi.sameRibs (sameRibs_ribDumpR hstep)
  | up q sup => exact hi.peerUp hstep
  | down q =>
    obtain rfl := Except.ok.inj hstep
    exact hi.peerDown q
  | stale q aid flushall now =>
    obtain rfl := Except.ok.inj hstep
    exact hi.peerStale q aid flushall now
  | sendWithdraws q aid n =>
    obtain rfl := Except.ok.inj hstep
    exact hi.sameRibs (sameRibs_upDumpWithdraws ..)
  | sendUpdate q aid n =>
    obtain rfl := Except.ok.inj hstep
    exact hi.sameRibs (sameRibs_upDumpUpdate ..)

/-! ## Reloads -/

/-- A pending entry points to a path. -/
def PointsToPath (s : RdeState) (rib : ℕ) (pt : PtEntry) : Prop :=
  ∃ e ∈ (s.entry rib pt).pq, e.2.isSome

/-- Another configuration, if the entries that point to paths stay armed. -/
theorem PendingInv.reload (hi : PendingInv selfId freed cfg s) {cfg' : RdeConfig}
    (hentry : s'.entry = s.entry) (hptr : s'.nextPtr = s.nextPtr) (hkeys : s'.keys = s.keys)
    (hpq : ∀ q, (s'.peers q).ribPq = (s.peers q).ribPq)
    (harm : ∀ rib pt, PointsToPath s rib pt → armedAt cfg' s' rib pt = true) :
    PendingInv selfId freed cfg' s' where
  entry rib pt := by
    rw [hentry]
    exact { hi.entry rib pt with armed := fun e he hsome => harm rib pt ⟨e, he, hsome⟩ }
  old := by
    rw [hentry, hptr]
    exact hi.old
  keys := by
    rw [hentry, hkeys]
    exact hi.keys
  flow := by
    rw [hentry]
    exact hi.flow
  gone := by
    rw [hentry]
    exact hi.gone
  queue := hi.queue.congr hentry hpq

/-- The loop of `rib_free` empties the entries of the RIB. -/
theorem ribFreeEntry_spec (hi : PendingInv selfId freed cfg s)
    (hev : (cfg.ribFlags rib).noevaluate = true) (hrib : rib ≠ ribLocStart) (pt : PtEntry) :
    PendingInv selfId freed cfg (s.ribFreeEntry cfg rib pt) := by
  unfold RdeState.ribFreeEntry
  cases hnf : pt.aid.isFlowspec with
  | true =>
    have hnil : (s.entry rib pt).prefixH = [] := by
      rw [List.eq_nil_iff_forall_not_mem]
      intro p hp
      exact absurd (hi.flow rib pt hnf p hp).1 hrib
    rw [hnil]
    exact hi
  | false => exact PendingInv.foldl (fun s hs p _ => hs.prefixDestroy_raw hnf hev p) hi

theorem PendingInv.ribFree (hi : PendingInv selfId freed cfg s)
    (hev : (cfg.ribFlags rib).noevaluate = true) (hrib : rib ≠ ribLocStart) :
    PendingInv selfId freed cfg (s.ribFree cfg rib) :=
  PendingInv.foldl (fun _ hs pt _ => ribFreeEntry_spec hs hev hrib pt) hi

/-- What `prefix_destroy` does in a RIB without decision process. -/
theorem prefixDestroy_raw_entry (hev : (cfg.ribFlags rib).noevaluate = true) (p : Prefix) (r : ℕ)
    (k : PtEntry) : (s.prefixDestroy cfg rib pt p).entry r k = if r = rib ∧ k = pt then
      { s.entry rib pt with prefixH := tailqRemove (s.entry rib pt).prefixH p.ptr }
    else s.entry r k := by
  unfold RdeState.prefixDestroy RdeState.evaluate prefixEvaluate
  rw [if_neg (by simp), if_pos hev]
  exact applyEvaluation_entry ..

/-- All paths of the list are removed, and pending entries stay. -/
theorem foldl_destroy_entry (hev : (cfg.ribFlags rib).noevaluate = true) (l : List Prefix) (r : ℕ)
    (k : PtEntry) :
    (l.foldl (fun s p => s.prefixDestroy cfg rib pt p) s).entry r k = if r = rib ∧ k = pt then
      { s.entry rib pt with
        prefixH := (s.entry rib pt).prefixH.filter fun x => ∀ p ∈ l, x.ptr ≠ p.ptr }
    else s.entry r k := by
  induction l generalizing s with
  | nil =>
    split_ifs with heq
    · obtain ⟨rfl, rfl⟩ := heq
      simp
    · rfl
  | cons p l ih =>
    have hself : (s.prefixDestroy cfg rib pt p).entry rib pt =
        { s.entry rib pt with prefixH := tailqRemove (s.entry rib pt).prefixH p.ptr } :=
      (prefixDestroy_raw_entry hev p rib pt).trans (if_pos ⟨rfl, rfl⟩)
    rw [List.foldl_cons, ih, hself, prefixDestroy_raw_entry hev]
    split_ifs with heq
    · rw [tailqRemove, List.filter_filter]
      simp [Bool.and_comm]
    · rfl

theorem ribFreeEntry_entry (hev : (cfg.ribFlags rib).noevaluate = true) (pt : PtEntry) (r : ℕ)
    (k : PtEntry) : (s.ribFreeEntry cfg rib pt).entry r k =
      if r = rib ∧ k = pt then { s.entry rib pt with prefixH := [] } else s.entry r k := by
  rw [RdeState.ribFreeEntry, foldl_destroy_entry hev]
  have hnil : (s.entry rib pt).prefixH.filter (fun x => ∀ p ∈ (s.entry rib pt).prefixH,
      x.ptr ≠ p.ptr) = [] := by
    rw [List.filter_eq_nil_iff]
    intro x hx
    rw [decide_eq_true_eq]
    exact fun hall => hall x hx rfl
  rw [hnil]

/-- `rib_free` -/
theorem ribFree_entry (hev : (cfg.ribFlags rib).noevaluate = true) (l : List PtEntry) (r : ℕ)
    (k : PtEntry) : (l.foldl (fun s pt => s.ribFreeEntry cfg rib pt) s).entry r k =
      if r = rib ∧ k ∈ l then { s.entry r k with prefixH := [] } else s.entry r k := by
  induction l generalizing s with
  | nil => simp
  | cons pt l ih =>
    rw [List.foldl_cons, ih, ribFreeEntry_entry hev]
    by_cases hr : r = rib
    · subst hr
      by_cases hk : k = pt
      · subst hk
        simp
      · simp [hk]
    · simp [hr]

theorem noEvaluate_flags (cfg : RdeConfig) (rib r : ℕ) :
    ((cfg.noEvaluate rib).ribFlags r).noevaluate =
      if r = rib then true else (cfg.ribFlags r).noevaluate := by
  unfold RdeConfig.noEvaluate
  dsimp only
  split_ifs <;> rfl

/-- A RIB is deleted that has no pending entries which point to paths. -/
theorem PendingInv.ribFreed (hi : PendingInv selfId freed cfg s) (hrib : rib ≠ ribLocStart)
    (hno : ∀ pt, ¬PointsToPath s rib pt) :
    PendingInv selfId (fun i => i = rib || freed i) (cfg.noEvaluate rib)
      (s.ribFree (cfg.noEvaluate rib) rib) := by
  have hev : ((cfg.noEvaluate rib).ribFlags rib).noevaluate = true := by
    rw [noEvaluate_flags, if_pos rfl]
  have hcfg : PendingInv selfId freed (cfg.noEvaluate rib) s := by
    refine hi.reload rfl rfl rfl (fun _ => rfl) fun r pt hpt => ?_
    have hne : r ≠ rib := by
      rintro rfl
      exact hno pt hpt
    obtain ⟨e, he, hsome⟩ := hpt
    have harm := (hi.entry r pt).armed e he hsome
    rw [armedAt] at harm ⊢
    rw [noEvaluate_flags, if_neg hne]
    exact harm
  have hfree := hcfg.ribFree hev hrib
  refine { hfree with gone := fun r k hr => ?_ }
  rw [Bool.or_eq_true, decide_eq_true_eq] at hr
  rcases hr with rfl | hr
  · rw [RdeState.ribFree, ribFree_entry hev]
    split_ifs with hk
    · rfl
    · by_contra hne
      exact hk ⟨rfl, hi.keys r k hne⟩
  · exact hfree.gone r k hr

/-! ## Evaluating a RIB again -/

theorem relinked_ident (linked reach : Ptr → Bool) (p : Prefix) :
    (p.relinked linked reach).ident = p.ident := by
  unfold Prefix.relinked
  split_ifs <;> rfl

/-- While an entry is evaluated again, what is pending points to a path of the old list `L`, of
    which the paths `done` are back. -/
structure Reeval (cfg : RdeConfig) (s₀ : RdeState) (rib : ℕ) (pt : PtEntry) (L done : List Prefix)
    (s : RdeState) : Prop where
  pending : EntryPending (armedAt cfg s₀ rib pt) { s.entry rib pt with prefixH := L }
  back : (idents (s.entry rib pt).prefixH).Perm (idents done)
  other : ∀ r k, ¬(r = rib ∧ k = pt) → s.entry r k = s₀.entry r k
  frame : s.nextPtr = s₀.nextPtr ∧ s.keys = s₀.keys ∧ s.evalAll = s₀.evalAll
  queue : QueueInv s

variable {s₀ : RdeState} {L done : List Prefix}

/-- One more evaluated path keeps the state of the walk over the list. -/
theorem Reeval.step (hr : Reeval cfg s₀ rib pt L done s) (hnf : pt.aid.isFlowspec = false)
    (hev : (cfg.ribFlags rib).noevaluate = false) {p : Prefix} (hp : p.ident ∈ idents L)
    (hnd : ((p :: done).map (·.ptr)).Nodup) :
    Reeval cfg s₀ rib pt L (p :: done) (s.evaluate cfg rib pt (some p) none) := by
  have harm : armedAt cfg s₀ rib pt = s.evalAll := by
    rw [armedAt, hnf, hev, hr.frame.2.2]
    exact Bool.and_true _
  unfold RdeState.evaluate
  cases hrun : prefixEvaluate (s.decideCtx cfg) (cfg.ribFlags rib) s.evalAll
      (s.entry rib pt).prefixH (some p) none with
  | none =>
    unfold prefixEvaluate at hrun
    split_ifs at hrun with hnone
    cases hnone
  | some ev =>
    obtain ⟨hlist, hrep, -⟩ := prefixEvaluate_enqueues hev hrun
    have hperm : (idents ev.h).Perm (p.ident :: idents (s.entry rib pt).prefixH) := by
      rw [hlist]
      refine idents_insertNew fun n hn => ?_
      obtain rfl := Option.some.inj hn
      have hback : (idents (p :: (s.entry rib pt).prefixH)).Perm (idents (p :: done)) :=
        hr.back.cons _
      show ((p :: (s.entry rib pt).prefixH).map (·.ptr)).Nodup
      rw [← ptrs_idents, (hback.map _).nodup_iff, ptrs_idents]
      exact hnd
    obtain ⟨x, hx, hident⟩ := List.mem_map.mp hp
    have hpend : EntryPending (armedAt cfg s₀ rib pt)
        (RibEntry.evaluated { s.entry rib pt with prefixH := L } s.evalAll { ev with h := L }) :=
      hr.pending.evaluated hr.pending.keys (fun ha => harm ▸ ha)
        (fun y hy => Or.inl ⟨y, hy, rfl, rfl⟩)
        (fun q hq n hn => by
          obtain rfl := Option.some.inj (hrep.new q hq n hn)
          exact ⟨x, hx, ident_ptr hident, ident_id hident⟩)
        fun _ _ ha => harm.trans ha
    obtain ⟨hptr, hkeys, hall⟩ := applyEvaluation_frame s rib pt ev
    dsimp only
    refine ⟨?_, ?_, fun r k hne => ?_, ?_, hr.queue.applyEvaluation hrep.peer⟩
    · rw [applyEvaluation_entry, if_pos ⟨rfl, rfl⟩]
      exact hpend
    · rw [applyEvaluation_entry, if_pos ⟨rfl, rfl⟩]
      exact hperm.trans (hr.back.cons _)
    · rw [applyEvaluation_entry, if_neg hne]
      exact hr.other r k hne
    · rw [hptr, hkeys, hall]
      exact hr.frame

/-- Evaluating a whole list again ends with the same paths. -/
theorem Reeval.foldl (hnf : pt.aid.isFlowspec = false)
    (hev : (cfg.ribFlags rib).noevaluate = false) {f : Prefix → Prefix}
    (hf : ∀ p, (f p).ident = p.ident) {l : List Prefix} (hr : Reeval cfg s₀ rib pt L done s)
    (hsub : ∀ p ∈ l, p.ident ∈ idents L) (hnd : ((l ++ done).map (·.ptr)).Nodup) :
    ∃ done', (idents done').Perm (idents (l ++ done)) ∧
      Reeval cfg s₀ rib pt L done'
        (l.foldl (fun s p => s.evaluate cfg rib pt (some (f p)) none) s) := by
  induction l generalizing s done with
  | nil => exact ⟨done, List.Perm.refl _, hr⟩
  | cons p l ih =>
    have hptrs : ((f p :: (l ++ done)).map (·.ptr)).Nodup := by
      rw [List.map_cons, ident_ptr (hf p), ← List.map_cons]
      exact hnd
    obtain ⟨hp, hnd'⟩ := List.nodup_cons.mp hptrs
    have hmid : ((l ++ f p :: done).map (·.ptr)).Nodup := by
      rw [List.map_append, List.map_cons, List.nodup_middle, ← List.map_append]
      exact hptrs
    have hstep := hr.step hnf hev (hf p ▸ hsub p List.mem_cons_self)
      (hptrs.sublist (((List.sublist_append_right l done).cons_cons (f p)).map _))
    obtain ⟨done', hperm, hdone⟩ := ih hstep (fun q hq => hsub q (List.mem_cons_of_mem _ hq)) hmid
    refine ⟨done', hperm.trans ?_, hdone⟩
    rw [idents, idents, List.map_append, List.map_cons, hf, List.cons_append, List.map_cons,
      List.map_append]
    exact List.perm_middle

/-- `rde_softreconfig_sync_reeval` -/
theorem PendingInv.syncReeval (hi : PendingInv selfId freed cfg s)
    (hnf : pt.aid.isFlowspec = false) (rib : ℕ) (linked reach : Ptr → Bool) :
    PendingInv selfId freed cfg (s.syncReeval cfg rib pt linked reach) := by
  unfold RdeState.syncReeval
  dsimp only
  cases hev : (cfg.ribFlags rib).noevaluate with
  | true => exact hi.sameIdents hnf (idents_map (f := Prefix.unlinked linked) (fun _ => rfl) _)
  | false =>
    have hk := (hi.entry rib pt).keys
    -- all paths are taken out, and put back one after another
    have hstart : Reeval cfg s rib pt (s.entry rib pt).prefixH []
        (s.setEntry rib pt { s.entry rib pt with prefixH := [] }) := by
      refine ⟨?_, ?_, fun r k hne => ?_, ⟨rfl, rfl, rfl⟩, ?_⟩
      · rw [setEntry_entry, if_pos ⟨rfl, rfl⟩]
        exact hi.entry rib pt
      · rw [setEntry_entry, if_pos ⟨rfl, rfl⟩]
      · rw [setEntry_entry, if_neg hne]
      · show QueueInv (s.applyEvaluation rib pt { h := [] })
        exact hi.queue.applyEvaluation fun _ hq => nomatch hq
    obtain ⟨done, hdone, hr⟩ := hstart.foldl hnf hev (relinked_ident linked reach)
      (fun p hp => List.mem_map_of_mem hp) (by rw [List.append_nil]; exact hk.ptrs)
    rw [List.append_nil] at hdone
    rw [if_neg Bool.false_ne_true]
    generalize (s.entry rib pt).prefixH.foldl (fun s p => s.evaluate cfg rib pt
      (some (p.relinked linked reach)) none)
      (s.setEntry rib pt { s.entry rib pt with prefixH := [] }) = s' at hr
    -- all paths are back
    have hperm := hr.back.trans hdone
    have hcases : ∀ r k, (r = rib ∧ k = pt) ∨ s'.entry r k = s.entry r k := fun r k => by
      by_cases heq : r = rib ∧ k = pt
      · exact Or.inl heq
      · exact Or.inr (hr.other r k heq)
    have hmem : ∀ p ∈ (s'.entry rib pt).prefixH, ∃ x ∈ (s.entry rib pt).prefixH,
        x.ident = p.ident := fun p hp =>
      List.mem_map.mp (hperm.mem_iff.mp (List.mem_map_of_mem hp))
    refine ⟨fun r k => ?_, fun r k => ?_, fun r k => ?_, fun r k => ?_, fun r k => ?_, hr.queue⟩
    · rw [armedAt, hr.frame.2.2]
      rcases hcases r k with ⟨rfl, rfl⟩ | heq
      · exact hr.pending.perm hperm
      · rw [heq]
        exact hi.entry r k
    · rw [hr.frame.1]
      rcases hcases r k with ⟨rfl, rfl⟩ | heq
      · intro p hp
        obtain ⟨x, hx, hident⟩ := hmem p hp
        rw [← ident_ptr hident]
        exact hi.old r k x hx
      · rw [heq]
        exact hi.old r k
    · rw [hr.frame.2.1]
      rcases hcases r k with ⟨rfl, rfl⟩ | heq
      · intro hne
        obtain ⟨p, hp⟩ := List.exists_mem_of_ne_nil _ hne
        obtain ⟨x, hx, -⟩ := hmem p hp
        exact hi.keys r k (List.ne_nil_of_mem hx)
      · rw [heq]
        exact hi.keys r k
    · rcases hcases r k with ⟨rfl, rfl⟩ | heq
      · exact fun hf => absurd (hnf.symm.trans hf) Bool.false_ne_true
      · rw [heq]
        exact hi.flow r k
    · rcases hcases r k with ⟨rfl, rfl⟩ | heq
      · intro hfree
        rw [List.eq_nil_iff_forall_not_mem]
        intro p hp
        obtain ⟨x, hx, -⟩ := hmem p hp
        rw [hi.gone r k hfree] at hx
        cases hx
      · rw [heq]
        exact hi.gone r k

/-! ## Deleting a peer -/

theorem handOver_ribPq (hq : q ≠ peerself) (p : PeerId) : ((s.handOver q).peers p).ribPq =
    if p = q then [] else if p = peerself then (s.peers peerself).ribPq ++ (s.peers q).ribPq
    else (s.peers p).ribPq := by
  unfold RdeState.handOver RdeState.setPeer
  dsimp only
  split_ifs <;> rfl

/-- Handing the entries over to a peer keeps the queues. -/
theorem QueueInv.handOver (hi : QueueInv s) (hq : q ≠ peerself) : QueueInv (s.handOver q) := by
  -- where the entries of a queue come from
  have hfrom : ∀ p, ∀ e ∈ ((s.handOver q).peers p).ribPq,
      p ≠ q ∧ (e ∈ (s.peers p).ribPq ∨ p = peerself ∧ e ∈ (s.peers q).ribPq) := by
    intro p e he
    rw [handOver_ribPq hq] at he
    split_ifs at he with hpq hself
    · cases he
    · subst hself
      exact ⟨hpq, (List.mem_append.mp he).imp_right fun h => ⟨rfl, h⟩⟩
    · exact ⟨hpq, Or.inl he⟩
  refine ⟨fun rib pt hm => ?_, fun p e he => ?_, fun p => ?_, fun p p' e he he' => ?_⟩
  · obtain ⟨p, hp⟩ := hi.queued rib pt hm
    by_cases hpq : p = q
    · subst hpq
      refine ⟨peerself, ?_⟩
      rw [handOver_ribPq hq, if_neg fun h => hq h.symm, if_pos rfl]
      exact List.mem_append_right _ hp
    · refine ⟨p, ?_⟩
      rw [handOver_ribPq hq, if_neg hpq]
      split_ifs with hself
      · exact List.mem_append_left _ (hself ▸ hp)
      · exact hp
  · rcases (hfrom p e he).2 with he | ⟨-, he⟩
    · exact hi.mode p e he
    · exact hi.mode q e he
  · rw [handOver_ribPq hq]
    split_ifs
    · exact List.nodup_nil
    · exact List.nodup_append.mpr ⟨hi.nodup _, hi.nodup _, fun e he e' he' heq =>
        hq (hi.unique q peerself e (heq ▸ he') he)⟩
    · exact hi.nodup p
  · obtain ⟨hpq, hp⟩ := hfrom p e he
    obtain ⟨hpq', hp'⟩ := hfrom p' e he'
    rcases hp with hp | ⟨rfl, hp⟩
    · rcases hp' with hp' | ⟨rfl, hp'⟩
      · exact hi.unique p p' e hp hp'
      · exact absurd (hi.unique p q e hp hp') hpq
    · rcases hp' with hp' | ⟨rfl, -⟩
      · exact absurd (hi.unique p' q e hp' hp) hpq'
      · rfl

/-- `peer_delete` -/
theorem PendingInv.peerDelete (hi : PendingInv selfId freed cfg s) (hq : q ≠ peerself) :
    PendingInv selfId freed cfg (s.peerDelete cfg q) := by
  have hdown : PendingInv selfId freed cfg
      (if (s.peers q).state = .down then s else s.peerDown cfg q) := by
    split_ifs
    · exact hi
    · exact hi.peerDown q
  exact { hdown with queue := hdown.queue.handOver hq }

/-! ## Flowspec rules -/

/-- There is at most one rule for a destination, the one that is looked up. -/
theorem PendingInv.flowspecGet (hi : PendingInv selfId freed cfg s)
    (hflow : pt.aid.isFlowspec = true) :
    (s.entry ribLocStart pt).prefixH = (s.flowspecGet pt).toList := by
  have hself := hi.flow ribLocStart pt hflow
  have hpaths := (hi.entry ribLocStart pt).keys.paths
  unfold RdeState.flowspecGet RdeState.prefixGet
  generalize (s.entry ribLocStart pt).prefixH = h at hself hpaths
  cases h with
  | nil => rfl
  | cons p h =>
    obtain ⟨-, hp, hp', -⟩ := hself p List.mem_cons_self
    have hfind : (p :: h).find? (fun p => p.peer = peerself ∧ p.pathId = 0) = some p :=
      List.find?_cons_of_pos (decide_eq_true ⟨hp, hp'⟩)
    rw [hfind]
    cases h with
    | nil => rfl
    | cons x h =>
      obtain ⟨-, hx, hx', -⟩ := hself x (List.mem_cons_of_mem _ List.mem_cons_self)
      have hsame : (p.peer, p.pathId) = (x.peer, x.pathId) := by rw [hp, hp', hx, hx']
      exact absurd (List.mem_map.mpr ⟨x, List.mem_cons_self, hsame.symm⟩)
        (List.nodup_cons.mp hpaths).1

/-- A change of the list after the report. -/
theorem rdeEnqueueUpdates_then (s : RdeState) (rib : ℕ) (pt : PtEntry) (q : Enqueue)
    (h h' : List Prefix) :
    let s₁ := (s.setEntry rib pt { s.entry rib pt with prefixH := h }).rdeEnqueueUpdates rib pt q
    (s₁.entry rib pt).prefixH = h ∧
      s₁.setEntry rib pt { s₁.entry rib pt with prefixH := h' } =
        s.applyEvaluation rib pt { h := h', enqueue := some q } := by
  intro s₁
  have hs₁ : s₁ = s.applyEvaluation rib pt { h := h, enqueue := some q } := rfl
  refine ⟨?_, ?_⟩
  · rw [hs₁, applyEvaluation_entry, if_pos ⟨rfl, rfl⟩]
    rfl
  · rw [hs₁]
    unfold RdeState.applyEvaluation RdeState.rdeEnqueueUpdates
    simp only [setEntry_entry, and_self, if_true, setEntry_setEntry]
    cases (s.entry rib pt).pqMode with
    | some m =>
      dsimp only
      rw [setEntry_setEntry, setEntry_entry, if_pos ⟨rfl, rfl⟩]
      rfl
    | none =>
      cases q.peer with
      | none =>
        dsimp only
        rw [setEntry_setEntry, setEntry_entry, if_pos ⟨rfl, rfl⟩]
        rfl
      | some peer =>
        dsimp only
        refine (congrArg (fun x => RdeState.setPeer x peer
          { s.peers peer with ribPq := (s.peers peer).ribPq ++ [(rib, pt)] })
          (setEntry_setEntry rib pt _ _)).trans ?_
        rw [show ((s.setEntry rib pt _).setPeer peer _).entry rib pt = _ from if_pos ⟨rfl, rfl⟩]
        rfl

/-- A rule takes the place of the one that was there; both have the path id of `peerself`. -/
theorem PendingInv.flowspecChange (hi : PendingInv selfId freed cfg s)
    (hflow : pt.aid.isFlowspec = true) (hlive : freed ribLocStart = false) {n : Option Prefix}
    {q : Enqueue} (hq : q.pathIdTx = selfId) (hpeer : q.peer = some peerself)
    (hpath : q.newpath = n) (hkey : n.isSome → pt ∈ s.keys)
    (hn : ∀ p ∈ n, p.peer = peerself ∧ p.pathId = 0 ∧ p.pathIdTx = selfId ∧ p.ptr < s.nextPtr) :
    PendingInv selfId freed cfg
      (s.applyEvaluation ribLocStart pt { h := n.toList, enqueue := some q }) := by
  have harm : armedAt cfg s ribLocStart pt = s.evalAll := by
    rw [armedAt, hflow, Bool.true_or, Bool.and_true]
  have hok := hi.entry ribLocStart pt
  refine hi.applyEvaluation (hok.evaluated ?_ (fun ha => harm ▸ ha) (fun p hp => Or.inr fun _ => ?_)
    (fun x hx p hp => ?_) (fun _ _ ha => harm.trans ha)) (fun p hp => ?_) (fun hne => hkey ?_)
    (fun _ p hp => ?_) (fun hfree => absurd (hlive.symm.trans hfree) Bool.false_ne_true)
    (fun x hx => ?_)
  · cases n with
    | none => exact ⟨List.nodup_nil, List.nodup_nil⟩
    | some p => exact ⟨List.nodup_singleton _, List.nodup_singleton _⟩
  · exact ⟨q, rfl, hq.trans (hi.flow ribLocStart pt hflow p hp).2.2.2.symm⟩
  · obtain rfl := Option.some.inj hx
    exact ⟨p, Option.mem_toList.mpr (hpath ▸ hp), rfl, rfl⟩
  · exact (hn p (Option.mem_toList.mp hp)).2.2.2
  · cases n with
    | none => exact absurd rfl hne
    | some p => rfl
  · obtain ⟨h₁, h₂, h₃, -⟩ := hn p (Option.mem_toList.mp hp)
    exact ⟨rfl, h₁, h₂, h₃⟩
  · obtain rfl := Option.some.inj hx
    rw [hpeer]
    rfl

/-- `prefix_flowspec_withdraw`: the rule is gone. -/
theorem prefixFlowspecWithdraw_eq {p : Prefix} (hget : s.flowspecGet pt = some p)
    (hlist : (s.entry ribLocStart pt).prefixH = [p]) :
    s.prefixFlowspecWithdraw pt = s.applyEvaluation ribLocStart pt
      { h := [], enqueue := some ⟨some peerself, none, p.pathIdTx, .default⟩ } := by
  have hself : s.setEntry ribLocStart pt { s.entry ribLocStart pt with
      prefixH := (s.entry ribLocStart pt).prefixH } = s := by
    unfold RdeState.setEntry
    congr 1
    funext r k
    split_ifs with heq
    · rw [heq.1, heq.2]
    · rfl
  obtain ⟨hsame, hthen⟩ := rdeEnqueueUpdates_then s ribLocStart pt
    ⟨some peerself, none, p.pathIdTx, .default⟩ (s.entry ribLocStart pt).prefixH []
  dsimp only at hsame hthen
  rw [hself] at hsame hthen
  unfold RdeState.prefixFlowspecWithdraw RdeState.unlinkPath
  rw [hget]
  dsimp only
  rw [hsame, hlist, ← hthen]
  have hnil : tailqRemove [p] p.ptr = [] := by
    rw [tailqRemove, List.filter_cons_of_neg (by simp), List.filter_nil]
  rw [hnil]

theorem PendingInv.prefixFlowspecWithdraw (hi : PendingInv selfId freed cfg s)
    (hflow : pt.aid.isFlowspec = true) (hlive : freed ribLocStart = false) :
    PendingInv selfId freed cfg (s.prefixFlowspecWithdraw pt) := by
  cases hget : s.flowspecGet pt with
  | none =>
    unfold RdeState.prefixFlowspecWithdraw
    rw [hget]
    exact hi
  | some p =>
    have hlist := hi.flowspecGet hflow
    rw [hget, Option.toList_some] at hlist
    rw [prefixFlowspecWithdraw_eq hget hlist]
    have hid := (hi.flow ribLocStart pt hflow p (prefixGet_some hget).1).2.2.2
    exact hi.flowspecChange (n := none) hflow hlive hid rfl rfl (fun h => nomatch h)
      fun _ h => nomatch h

/-- `prefix_flowspec_update` -/
theorem PendingInv.prefixFlowspecUpdate (hi : PendingInv selfId freed cfg s)
    (hflow : pt.aid.isFlowspec = true) (hlive : freed ribLocStart = false) (state : FilterState)
    (now : ℕ) : PendingInv selfId freed cfg (s.prefixFlowspecUpdate cfg pt state selfId now) := by
  obtain ⟨hadd, hmem, hentry, hptr⟩ := hi.nextPtr.addKey pt
  have hlist : (({ s with nextPtr := s.nextPtr + 1 }.addKey pt).entry ribLocStart pt).prefixH =
      (s.flowspecGet pt).toList := by
    rw [hentry]
    exact hi.flowspecGet hflow
  unfold RdeState.prefixFlowspecUpdate RdeState.linkPath
  dsimp only
  generalize hnew : ({ s.prefixLink cfg _ with nhvalid := true } : Prefix) = n
  have hn : n.peer = peerself ∧ n.pathId = 0 ∧ n.pathIdTx = selfId ∧ n.ptr = s.nextPtr := by
    rw [← hnew]
    exact ⟨rfl, rfl, rfl, rfl⟩
  generalize ({ s with nextPtr := s.nextPtr + 1 } : RdeState).addKey pt = s₁ at *
  have hchange : ∀ id, PendingInv selfId freed cfg (s₁.applyEvaluation ribLocStart pt
      { h := [n], enqueue := some ⟨some peerself, some n, id, .default⟩ }) := fun id =>
    hadd.flowspecChange (n := some n) hflow hlive hn.2.2.1 rfl rfl (fun _ => hmem) fun p hp => by
      obtain rfl := Option.some.inj hp
      refine ⟨hn.1, hn.2.1, hn.2.2.1, ?_⟩
      rw [hn.2.2.2, hptr]
      exact Nat.lt_succ_self _
  cases hget : s.flowspecGet pt with
  | none =>
    rw [hget, Option.toList_none] at hlist
    dsimp only
    rw [hlist]
    exact hchange _
  | some o =>
    rw [hget, Option.toList_some] at hlist
    dsimp only
    rw [hlist]
    obtain ⟨hsame, hthen⟩ := rdeEnqueueUpdates_then s₁ ribLocStart pt
      ⟨some peerself, some n, ((some o).map (·.pathIdTx)).getD 0, .default⟩ [n, o] [n]
    have hne : n.ptr ≠ o.ptr := by
      rw [hn.2.2.2]
      exact (hi.old ribLocStart pt o (prefixGet_some hget).1).ne'
    have hrest : tailqRemove [n, o] o.ptr = [n] := by simp [tailqRemove, hne]
    unfold RdeState.unlinkPath
    rw [hsame, hrest, hthen]
    exact hchange _

/-! ## Runs -/

/-- No pending entry may be left behind: entries that point to paths stay armed when the
    configuration is reloaded, and a RIB is deleted without any. -/
def ReloadOk (σ : PqState) : PqEvent → Prop
  | .reload cfg evalAll _ => ∀ rib pt, PointsToPath σ.rde rib pt →
      evalAll = true ∧ (pt.aid.isFlowspec = true ∨ (cfg.ribFlags rib).noevaluate = false)
  | .ribFree rib => ∀ pt, ¬PointsToPath σ.rde rib pt
  | _ => True

/-- What pending entries and queues promise to each other. -/
structure PendingOk (s : RdeState) : Prop where
  live : ∀ rib pt, ∀ e ∈ (s.entry rib pt).pq, ∀ q ∈ e.2,
    ∃ p ∈ (s.entry rib pt).prefixH, p.ptr = q ∧ p.pathIdTx = e.1
  ids : ∀ rib pt, ((s.entry rib pt).pq.map (·.1)).Nodup
  idle : ∀ rib pt, (s.entry rib pt).pqMode = none → (s.entry rib pt).pq = []
  queue : ∀ rib pt, (s.entry rib pt).pqMode ≠ none ↔ ∃ q, (s.peers q).ribPq.count (rib, pt) = 1 ∧
    ∀ q' ≠ q, (rib, pt) ∉ (s.peers q').ribPq
  offQueue : ∀ rib pt, (s.entry rib pt).pqMode = none → ∀ q, (rib, pt) ∉ (s.peers q).ribPq

theorem PendingInv.pendingOk (hi : PendingInv selfId freed cfg s) : PendingOk s where
  live rib pt := (hi.entry rib pt).live
  ids rib pt := (hi.entry rib pt).ids
  idle rib pt := (hi.entry rib pt).idle
  queue rib pt := by
    constructor
    · intro hm
      obtain ⟨q, hq⟩ := hi.queue.queued rib pt hm
      refine ⟨q, List.count_eq_one_of_mem (hi.queue.nodup q) hq, fun q' hne hq' => ?_⟩
      exact hne (hi.queue.unique q' q _ hq' hq)
    · rintro ⟨q, hq, -⟩
      exact hi.queue.mode q (rib, pt) (List.count_pos_iff.mp (hq ▸ Nat.one_pos))
  offQueue rib pt hm q hq := hi.queue.mode q (rib, pt) hq hm

/-- What holds of the system. -/
def PqInv (selfId : ℕ) (σ : PqState) : Prop :=
  PendingInv selfId σ.freed σ.cfg σ.rde ∧ σ.freed ribLocStart = false

/-- Every event keeps the invariant, if reloads wait for the queues. -/
theorem PqInv.step {σ σ' : PqState} {e : PqEvent} (hi : PqInv selfId σ) (hok : ReloadOk σ e)
    (h : pqStep selfId σ e = some σ') : PqInv selfId σ' := by
  obtain ⟨hi, hlive⟩ := hi
  cases e with
  | rde e =>
    rw [pqStep] at h
    split_ifs at h with hal
    obtain ⟨s, hs, rfl⟩ := Option.map_eq_some_iff.mp h
    exact ⟨hi.rdeEvent hal hs, hlive⟩
  | reload cfg evalAll params =>
    obtain rfl := Option.some.inj h
    refine ⟨hi.reload rfl rfl rfl (fun _ => rfl) fun rib pt hpt => ?_, hlive⟩
    obtain ⟨hall, hev⟩ := hok rib pt hpt
    rw [armedAt, Bool.and_eq_true, Bool.or_eq_true, Bool.not_eq_true']
    exact ⟨hall, hev⟩
  | ribFree rib =>
    rw [pqStep] at h
    split_ifs at h with hdef
    obtain rfl := Option.some.inj h
    exact ⟨hi.ribFreed (fun heq => hdef heq.le) hok, by
      rw [Bool.or_eq_false_iff, decide_eq_false_iff_not]
      exact ⟨fun heq => hdef heq.ge, hlive⟩⟩
  | syncReeval rib pt linked reach =>
    rw [pqStep] at h
    split_ifs at h with hno
    obtain rfl := Option.some.inj h
    rw [not_or, Bool.not_eq_true, Bool.not_eq_true] at hno
    exact ⟨hi.syncReeval hno.2 rib linked reach, hlive⟩
  | peerDelete q =>
    rw [pqStep] at h
    split_ifs at h with hself
    obtain rfl := Option.some.inj h
    exact ⟨{ hi.peerDelete hself with entry := (hi.peerDelete hself).entry }, hlive⟩
  | flowspecAdd pt state now =>
    rw [pqStep] at h
    split_ifs at h with hflow
    obtain rfl := Option.some.inj h
    exact ⟨hi.prefixFlowspecUpdate hflow hlive state now, hlive⟩
  | flowspecDelete pt =>
    rw [pqStep] at h
    split_ifs at h with hflow
    obtain rfl := Option.some.inj h
    exact ⟨hi.prefixFlowspecWithdraw hflow hlive, hlive⟩

/-! ## Reloads that do not wait -/

/-- A path is withdrawn. -/
def PqEvent.isWithdraw : PqEvent → Bool
  | .rde (.withdraw ..) => true
  | .flowspecDelete _ => true
  | _ => false

/-- A path is gone, and the pending entry that points to it stays. -/
theorem not_pendingOk {e : ℕ × Option Ptr} {q : Ptr} (he : e ∈ (s.entry rib pt).pq) (hq : q ∈ e.2)
    (hgone : ∀ p ∈ (s.entry rib pt).prefixH, p.ptr ≠ q) : ¬PendingOk s := by
  intro hok
  obtain ⟨p, hp, hptr, -⟩ := hok.live rib pt e he q hq
  exact hgone p hp hptr

/-- A withdraw from an entry that is not armed leaves its pending entries alone. -/
theorem prefixWithdraw_dangles (hk : KeysNodup (s.entry rib pt).prefixH)
    (hoff : (s.evalAll && !(cfg.ribFlags rib).noevaluate) = false) {p : Prefix}
    (hp : p ∈ (s.entry rib pt).prefixH) {e : ℕ × Option Ptr} (he : e ∈ (s.entry rib pt).pq)
    (hq : p.ptr ∈ e.2) : ¬PendingOk (s.prefixWithdraw cfg rib p.peer p.pathId pt) := by
  -- the route that is withdrawn is `p`
  have hget : s.prefixGet rib p.peer p.pathId pt = some p := by
    cases hget : s.prefixGet rib p.peer p.pathId pt with
    | none => exact absurd (decide_eq_true ⟨rfl, rfl⟩) (List.find?_eq_none.mp hget p hp)
    | some p' =>
      obtain ⟨hp', hpeer, hpath⟩ := prefixGet_some hget
      rw [List.inj_on_of_nodup_map hk.paths hp' hp (by rw [hpeer, hpath])]
  unfold RdeState.prefixWithdraw
  rw [hget]
  dsimp only
  unfold RdeState.prefixDestroy RdeState.evaluate
  have ht : TakesPlace (s.entry rib pt).prefixH none (some p) := by
    refine ⟨?_, ?_, ?_, ?_⟩
    · rintro o ⟨⟩
      exact List.mem_map_of_mem hp
    all_goals rintro n ⟨⟩
  cases hrun : prefixEvaluate (s.decideCtx cfg) (cfg.ribFlags rib) s.evalAll
      (s.entry rib pt).prefixH none (some p) with
  | none =>
    unfold prefixEvaluate at hrun
    split_ifs at hrun with hnone
    cases hnone
  | some ev =>
    -- no neighbour is told, so the pending list stays as it is
    have hboth : (∃ rest, Changed (s.entry rib pt).prefixH ev.h none (some p) rest) ∧
        (ev.enqueue = none ∨ s.evalAll = false) := by
      cases hev : (cfg.ribFlags rib).noevaluate with
      | true =>
        obtain ⟨rest, hchange, hquiet⟩ := prefixEvaluate_raw hk ht hev hrun
        exact ⟨⟨rest, hchange⟩, Or.inl hquiet⟩
      | false =>
        rw [hev, Bool.not_false, Bool.and_true] at hoff
        have hchange := changed_evaluate (c := s.decideCtx cfg) hk ht
        rw [← (prefixEvaluate_enqueues hev hrun).1] at hchange
        exact ⟨⟨_, hchange⟩, Or.inr hoff⟩
    obtain ⟨⟨rest, hchange⟩, hquiet⟩ := hboth
    have he' : e ∈ ((s.applyEvaluation rib pt ev).entry rib pt).pq := by
      rw [applyEvaluation_entry, if_pos ⟨rfl, rfl⟩]
      rcases hquiet with hquiet | hquiet
      · simp only [RibEntry.evaluated, hquiet]
        exact he
      · simp only [RibEntry.evaluated, hquiet]
        cases ev.enqueue with
        | none => exact he
        | some q => exact he
    -- it still names `p`, which is not listed any more
    refine not_pendingOk he' hq fun x hx hptr => ?_
    rw [applyEvaluation_entry, if_pos ⟨rfl, rfl⟩] at hx
    have hnd := (hchange.before.map (·.1)).nodup_iff.mp (ptrs_idents _ ▸ hk.ptrs)
    rw [Option.map_some, Option.toList_some, List.singleton_append, List.map_cons,
      List.nodup_cons] at hnd
    exact hnd.1 (List.mem_map.mpr
      ⟨x.ident, hchange.after.mem_iff.mp (List.mem_map_of_mem hx), hptr⟩)

/-- The same for the withdraw of a flowspec rule. -/
theorem prefixFlowspecWithdraw_dangles {p : Prefix} (hget : s.flowspecGet pt = some p)
    (hlist : (s.entry ribLocStart pt).prefixH = [p]) (hoff : s.evalAll = false)
    {e : ℕ × Option Ptr} (he : e ∈ (s.entry ribLocStart pt).pq) {q : Ptr} (hq : q ∈ e.2) :
    ¬PendingOk (s.prefixFlowspecWithdraw pt) := by
  rw [prefixFlowspecWithdraw_eq hget hlist]
  have he' : e ∈ ((s.applyEvaluation ribLocStart pt
      { h := [], enqueue := some ⟨some peerself, none, p.pathIdTx, .default⟩ }).entry
      ribLocStart pt).pq := by
    rw [applyEvaluation_entry, if_pos ⟨rfl, rfl⟩]
    simp only [RibEntry.evaluated, hoff]
    exact he
  refine not_pendingOk he' hq fun y hy _ => ?_
  rw [applyEvaluation_entry, if_pos ⟨rfl, rfl⟩] at hy
  cases hy

/-- A reload that does not wait lets a pending entry dangle, at once or with a withdraw. -/
theorem PqInv.reloadOk {σ σ' : PqState} {e : PqEvent} (hi : PqInv selfId σ)
    (h : pqStep selfId σ e = some σ') (hok : PendingOk σ'.rde)
    (hnext : ∀ e' σ'', e'.isWithdraw = true → pqStep selfId σ' e' = some σ'' → PendingOk σ''.rde) :
    ReloadOk σ e := by
  obtain ⟨hi, -⟩ := hi
  cases e with
  | reload cfg evalAll params =>
    obtain rfl := Option.some.inj h
    rintro rib pt ⟨x, hx, hsome⟩
    obtain ⟨q, hq⟩ := Option.isSome_iff_exists.mp hsome
    obtain ⟨p, hp, rfl, -⟩ := (hi.entry rib pt).live x hx q hq
    by_contra hno
    cases hflow : pt.aid.isFlowspec with
    | true =>
      -- the rule is deleted
      have hoff : evalAll = false := by
        by_contra hall
        exact hno ⟨by simpa using hall, Or.inl hflow⟩
      obtain rfl := (hi.flow rib pt hflow p hp).1
      have hlist := hi.flowspecGet hflow
      obtain ⟨p', hget⟩ : ∃ p', σ.rde.flowspecGet pt = some p' := by
        cases hget : σ.rde.flowspecGet pt with
        | none =>
          rw [hlist, hget] at hp
          cases hp
        | some p' => exact ⟨p', rfl⟩
      rw [hget, Option.toList_some] at hlist
      have hdel := hnext (.flowspecDelete pt) _ rfl (by rw [pqStep, if_pos hflow])
      exact prefixFlowspecWithdraw_dangles (s := { σ.rde with
        evalAll := evalAll
        peers := fun q => { σ.rde.peers q with toOutParams := params q } }) hget hlist
          hoff hx hq hdel
    -- any other family: the withdrawal leaves an entry that names the path
    | false =>
      have hoff : (evalAll && !(cfg.ribFlags rib).noevaluate) = false := by
        by_contra hall
        rw [Bool.not_eq_false, Bool.and_eq_true, Bool.not_eq_true'] at hall
        exact hno ⟨hall.1, Or.inr hall.2⟩
      have hlive : σ.freed rib = false := by
        by_contra hfree
        rw [hi.gone rib pt (by simpa using hfree)] at hp
        cases hp
      have hdel := hnext (.rde (.withdraw rib p.peer p.pathId pt)) _ rfl (by
        rw [pqStep, if_pos (by simp [PqState.allows, Event.target, Event.processed, hlive, hflow])]
        rfl)
      exact prefixWithdraw_dangles (s := { σ.rde with
        evalAll := evalAll
        peers := fun q => { σ.rde.peers q with toOutParams := params q } })
        (hi.entry rib pt).keys hoff hp hx hq hdel
  | ribFree rib =>
    rw [pqStep] at h
    split_ifs at h
    obtain rfl := Option.some.inj h
    rintro pt ⟨x, hx, hsome⟩
    obtain ⟨q, hq⟩ := Option.isSome_iff_exists.mp hsome
    obtain ⟨p, hp, -⟩ := (hi.entry rib pt).live x hx q hq
    have hev : ((σ.cfg.noEvaluate rib).ribFlags rib).noevaluate = true := by
      rw [noEvaluate_flags, if_pos rfl]
    -- the entry is empty, and its pending entries stay
    have hentry : (σ.rde.ribFree (σ.cfg.noEvaluate rib) rib).entry rib pt =
        { σ.rde.entry rib pt with prefixH := [] } := by
      rw [RdeState.ribFree, ribFree_entry hev,
        if_pos ⟨rfl, hi.keys rib pt (List.ne_nil_of_mem hp)⟩]
    obtain ⟨y, hy, -⟩ := hok.live rib pt x (by rw [hentry]; exact hx) q hq
    rw [hentry] at hy
    cases hy
  | _ => trivial

/-- The RDE after its start. -/
structure PqState.Empty (σ : PqState) : Prop where
  entry : ∀ rib pt, σ.rde.entry rib pt = {}
  ribPq : ∀ q, (σ.rde.peers q).ribPq = []
  freed : ∀ rib, σ.freed rib = false

theorem PqState.Empty.inv {σ : PqState} (h : σ.Empty) : PqInv selfId σ := by
  refine ⟨⟨fun rib pt => ?_, fun rib pt => ?_, fun rib pt => ?_, fun rib pt _ => ?_,
    fun rib pt _ => ?_, fun rib pt hm => ?_, fun q e he => ?_, fun q => ?_, fun q q' e he => ?_⟩,
    h.freed _⟩
  · rw [h.entry]
    exact EntryPending.empty _
  · rw [h.entry]
    exact List.forall_mem_nil _
  · rw [h.entry]
    exact fun hne => absurd rfl hne
  · rw [h.entry]
    exact List.forall_mem_nil _
  · rw [h.entry]
  · rw [h.entry] at hm
    exact absurd rfl hm
  · rw [h.ribPq] at he
    cases he
  · rw [h.ribPq]
    exact List.nodup_nil
  · rw [h.ribPq] at he
    cases he

/-- As long as reloads wait for the queues, pending entries point to listed paths; and the first
    reload that does not wait leaves one that dangles, at once or with the next withdraw. -/
theorem pending_entries_live {σ₀ σ : PqState} {es : List PqEvent} (h₀ : σ₀.Empty)
    (h : Run (pqStep selfId) ReloadOk σ₀ es σ) :
    PendingOk σ.rde ∧ ∀ e σ', pqStep selfId σ e = some σ' → (ReloadOk σ e ↔
      PendingOk σ'.rde ∧ ∀ e' σ'', e'.isWithdraw = true → pqStep selfId σ' e' = some σ'' →
        PendingOk σ''.rde) := by
  have hi : PqInv selfId σ := h.invariant (P := PqInv selfId)
    (fun _ _ _ hi hok hstep => hi.step hok hstep) h₀.inv
  refine ⟨hi.1.pendingOk, fun e σ' hstep => ⟨fun hok => ?_, fun hok => ?_⟩⟩
  · have hi' := hi.step hok hstep
    refine ⟨hi'.1.pendingOk, fun e' σ'' he' hstep' => ?_⟩
    have hok' : ReloadOk σ' e' := by
      cases e' with
      | reload => cases he'
      | ribFree => cases he'
      | _ => trivial
    exact (hi'.step hok' hstep').1.pendingOk
  · exact hi.reloadOk hstep hok.1 hok.2

/-- The RDE after its start, with two peers. -/
def sampleSystem : PqState where
  cfg := sampleConfig
  rde := sampleState

/-- `rde_reload_done` -/
def sampleReload (evalAll : Bool) : PqEvent :=
  .reload sampleConfig evalAll fun q => (samplePeer q).toOutParams

/-- All paths are evaluated from the first reload on. -/
theorem pending_entries_live_sample : ∃ σ, Run (pqStep 7) ReloadOk sampleSystem
    [sampleReload true, .rde (.update sampleUpdate), .rde (.withdraw 1 2 0 samplePt)] σ ∧
      PendingOk σ.rde := by
  have hempty : sampleSystem.Empty := ⟨fun _ _ => rfl, fun _ => rfl, fun _ => rfl⟩
  have hnone : ReloadOk sampleSystem (sampleReload true) := fun _ _ ⟨_, he, _⟩ => nomatch he
  have hrun : ∃ σ, Run (pqStep 7) ReloadOk sampleSystem
      [sampleReload true, .rde (.update sampleUpdate), .rde (.withdraw 1 2 0 samplePt)] σ :=
    ⟨_, .cons hnone rfl (.cons trivial rfl (.cons trivial rfl (.nil _)))⟩
  obtain ⟨σ, hrun⟩ := hrun
  exact ⟨σ, hrun, (pending_entries_live hempty hrun).1⟩

/-- The path of a pending entry is withdrawn after a reload. -/
theorem pending_entry_dangles : ∃ σ, Run (pqStep 7) (fun _ _ => True) sampleSystem
    [sampleReload true, .rde (.update sampleUpdate), sampleReload false,
      .rde (.withdraw 1 2 0 samplePt)] σ ∧ ¬PendingOk σ.rde := by
  obtain ⟨σ, hrun, e, he, q, hq, hgone⟩ := exists_run (pqStep 7) (fun _ _ => True) sampleSystem
    [sampleReload true, .rde (.update sampleUpdate), sampleReload false,
      .rde (.withdraw 1 2 0 samplePt)]
    (fun σ => ∃ e ∈ (σ.rde.entry 1 samplePt).pq, ∃ q ∈ e.2,
      ∀ p ∈ (σ.rde.entry 1 samplePt).prefixH, p.ptr ≠ q) (by decide)
  exact ⟨σ, hrun, not_pendingOk he hq hgone⟩

end Bgpd.Rde
