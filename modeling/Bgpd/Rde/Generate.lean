import Bgpd.Rde.Sync

/-!
# Generation in the State of the RDE

`peer_generate_update` for one peer leaves the other peers and the other destinations alone, so
that the loop of `peer_process_updates` is, for a given peer, one call of its generator.

## Main results

- `OutWf`: the invariant of the Adj-RIB-Outs and the pending queues
- `GenFrame`, `Unaffected`: what generation leaves alone
- `generateAll_split`: the loop over the peers, seen from one of them
-/

namespace Bgpd.Rde

open Bgpd.Lib

variable {cfg : RdeConfig} {s s₁ s' : RdeState} {rib : ℕ} {pt : PtEntry} {mode : EvalMode}
  {q p : PeerId} {out' : Out}

/-! ## Frames -/

/-- The Adj-RIB-Outs and the pending queues are in order. -/
structure OutWf (s : RdeState) : Prop where
  confId : ∀ q, (s.peers q).conf.id = q
  adjout : ∀ pt, AdjoutWf (s.adjout pt)
  pend : ∀ q aid, ((s.peers q).pend aid).Wf

theorem OutWf.out (h : OutWf s) (q : PeerId) (pt : PtEntry) : (s.out q pt).Wf :=
  ⟨h.adjout pt, h.pend q pt.aid⟩

/-- The peer without what generation changes. -/
def RdePeer.fixed (peer : RdePeer) : RdePeer :=
  { peer with pend := fun _ => {}, state := .none, prefixOutCnt := 0 }

/-- What generation for a destination leaves alone. -/
structure GenFrame (pt : PtEntry) (s s' : RdeState) : Prop where
  wf : OutWf s'
  entry : s'.entry = s.entry
  keys : s'.keys = s.keys
  dumps : s'.dumps = s.dumps
  evalAll : s'.evalAll = s.evalAll
  nextPtr : s'.nextPtr = s.nextPtr
  fixed : ∀ q, (s'.peers q).fixed = (s.peers q).fixed
  state : ∀ q, (s'.peers q).state = (s.peers q).state ∨
    (s'.peers q).state = .err ∧ (s.peers q).state ≠ .none
  adjout : ∀ k ≠ pt, s'.adjout k = s.adjout k
  pend : ∀ q, ∀ aid ≠ pt.aid, (s'.peers q).pend aid = (s.peers q).pend aid

/-- Nothing changes for a peer. -/
structure Unaffected (q : PeerId) (s s' : RdeState) : Prop where
  peer : s'.peers q = s.peers q
  entries : ∀ k, adjoutEntries q (s'.adjout k) = adjoutEntries q (s.adjout k)

theorem Unaffected.refl (q : PeerId) (s : RdeState) : Unaffected q s s := ⟨rfl, fun _ => rfl⟩

theorem Unaffected.trans (h : Unaffected q s s₁) (h' : Unaffected q s₁ s') : Unaffected q s s' :=
  ⟨h'.peer.trans h.peer, fun k => (h'.entries k).trans (h.entries k)⟩

theorem GenFrame.refl (pt : PtEntry) (h : OutWf s) : GenFrame pt s s :=
  ⟨h, rfl, rfl, rfl, rfl, rfl, fun _ => rfl, fun _ => Or.inl rfl, fun _ _ => rfl, fun _ _ _ => rfl⟩

theorem GenFrame.trans (h : GenFrame pt s s₁) (h' : GenFrame pt s₁ s') : GenFrame pt s s' where
  wf := h'.wf
  entry := h'.entry.trans h.entry
  keys := h'.keys.trans h.keys
  dumps := h'.dumps.trans h.dumps
  evalAll := h'.evalAll.trans h.evalAll
  nextPtr := h'.nextPtr.trans h.nextPtr
  fixed q := (h'.fixed q).trans (h.fixed q)
  state q := by
    rcases h'.state q, h.state q with ⟨h₂ | ⟨h₂, hne⟩, h₁ | ⟨h₁, hne'⟩⟩
    · exact Or.inl (h₂.trans h₁)
    · exact Or.inr ⟨h₂.trans h₁, hne'⟩
    · exact Or.inr ⟨h₂, h₁ ▸ hne⟩
    · exact Or.inr ⟨h₂, hne'⟩
  adjout k hk := (h'.adjout k hk).trans (h.adjout k hk)
  pend q aid ha := (h'.pend q aid ha).trans (h.pend q aid ha)

section Frame

variable (h : GenFrame pt s s') (q : PeerId)
include h

theorem GenFrame.outParams : (s'.peers q).toOutParams = (s.peers q).toOutParams :=
  (congrArg RdePeer.toOutParams (h.fixed q) : _)

theorem GenFrame.ribPq : (s'.peers q).ribPq = (s.peers q).ribPq :=
  (congrArg RdePeer.ribPq (h.fixed q) : _)

theorem GenFrame.upEnv : s'.upEnv cfg = s.upEnv cfg := by
  unfold RdeState.upEnv
  congr 1
  funext q
  rw [h.outParams q]

end Frame

theorem GenFrame.ribWf (h : GenFrame pt s s') (hwf : RibWf cfg s) : RibWf cfg s' := by
  obtain ⟨h1, h2, h3, h4, h5⟩ := hwf
  refine ⟨?_, ?_, ?_, ?_, ?_⟩
  · rwa [h.entry, h.evalAll]
  · rwa [h.entry, h.nextPtr]
  · rwa [h.entry]
  · rwa [h.keys]
  · rwa [h.entry, h.keys]

/-! ## One peer -/

/-- What a generator leaves alone. -/
theorem setOut_frame (h : OutWf s) (hstate : (s.peers q).state ≠ .none)
    (hf : OutFrame q pt (s.out q pt) out') :
    GenFrame pt s (s.setOut q pt out') ∧ ∀ p ≠ q, Unaffected p s (s.setOut q pt out') := by
  -- what `setOut` writes: the queues of `q`, and the entries of `pt`
  have hpeer : ∀ p, (s.setOut q pt out').peers p = if p = q then
      { s.peers q with
        pend := fun a => if a = pt.aid then out'.pend else (s.peers q).pend a
        state := out'.state
        prefixOutCnt := out'.prefixOutCnt } else s.peers p := fun _ => rfl
  have hadj : ∀ k, (s.setOut q pt out').adjout k = if k = pt then out'.adjout else s.adjout k :=
    fun _ => rfl
  refine ⟨⟨⟨fun p => ?_, fun k => ?_, fun p aid => ?_⟩, rfl, rfl, rfl, rfl, rfl, fun p => ?_,
    fun p => ?_, fun k hk => ?_, fun p aid ha => ?_⟩, fun p hp => ⟨?_, fun k => ?_⟩⟩
  · rw [hpeer]
    split_ifs with hp
    · rw [hp]
      exact h.confId q
    · exact h.confId p
  · rw [hadj]
    split_ifs
    · exact hf.wf.adjout
    · exact h.adjout k
  · rw [hpeer]
    split_ifs with hp
    · dsimp only
      split_ifs
      · exact hf.wf.pend
      · exact h.pend q aid
    · exact h.pend p aid
  · rw [hpeer]
    split_ifs with hp
    · rw [hp]
      rfl
    · rfl
  · rw [hpeer]
    split_ifs with hp
    · rw [hp]
      rcases hf.state with hs | hs
      · exact Or.inl hs
      · exact Or.inr ⟨hs, hstate⟩
    · exact Or.inl rfl
  · rw [hadj, if_neg hk]
  · rw [hpeer]
    split_ifs with hp
    · rw [hp]
      exact if_neg ha
    · rfl
  · rw [hpeer, if_neg hp]
  · rw [hadj]
    split_ifs with hk
    · rw [hk]
      exact hf.other p hp
    · rfl

/-- The eligible paths a generator goes through. -/
theorem RibWf.chain (h : RibWf cfg s) (rib : ℕ) (pt : PtEntry) :
    prefixChain (cfg.ribFlags rib) (s.entry rib pt).prefixH =
      if (cfg.ribFlags rib).noevaluate then [] else eligibles (s.entry rib pt).prefixH := by
  unfold prefixChain
  cases hev : (cfg.ribFlags rib).noevaluate with
  | true => rfl
  | false => exact (h.entry rib hev pt).list.takeWhile_eligible

theorem RibWf.chainOk (h : RibWf cfg s) (rib : ℕ) (pt : PtEntry) :
    ChainOk pt (prefixChain (cfg.ribFlags rib) (s.entry rib pt).prefixH) := by
  rw [h.chain]
  cases hev : (cfg.ribFlags rib).noevaluate with
  | true => exact ChainOk.nil pt
  | false => exact (h.entry rib hev pt).list.chainOk

theorem queued_ids (re : RibEntry) : re.queued.map (·.1) = re.pq.map (·.1) := by
  unfold RibEntry.queued
  rw [List.map_map]
  rfl

theorem RibWf.queued_nodup (h : RibWf cfg s) (rib : ℕ) (pt : PtEntry) :
    ((s.entry rib pt).queued.map (·.1)).Nodup := by
  rw [queued_ids]
  cases hev : (cfg.ribFlags rib).noevaluate with
  | true =>
    rw [(h.raw rib hev pt).1]
    exact List.nodup_nil
  | false => exact (h.entry rib hev pt).ids

/-- What is queued are paths of the chain. -/
theorem RibWf.queued_path (h : RibWf cfg s) (rib : ℕ) (pt : PtEntry) :
    ∀ e ∈ (s.entry rib pt).queued,
      e.2 = pathById (prefixChain (cfg.ribFlags rib) (s.entry rib pt).prefixH) e.1 := by
  intro e he
  unfold RibEntry.queued at he
  obtain ⟨x, hx, rfl⟩ := List.mem_map.mp he
  rw [h.chain]
  cases hev : (cfg.ribFlags rib).noevaluate with
  | true =>
    rw [(h.raw rib hev pt).1] at hx
    cases hx
  | false =>
    have hok := h.entry rib hev pt
    show _ = pathById (eligibles (s.entry rib pt).prefixH) x.1
    rw [← hok.paths x hx]
    cases hp : pathById (eligibles (s.entry rib pt).prefixH) x.1 with
    | none => rfl
    | some p =>
      -- the path at the address is the one with the path id
      have hmem := ((pathById_eq_some_iff hok.list.eligibles_ids).mp hp).1
      have hp' : p ∈ (s.entry rib pt).prefixH := (List.mem_filter.mp hmem).1
      rw [Option.map_some, Option.bind_some]
      cases hf : (s.entry rib pt).prefixH.find? fun y => y.ptr = p.ptr with
      | none => simpa using List.find?_eq_none.mp hf p hp'
      | some y =>
        have hy : y.ptr = p.ptr := by simpa using List.find?_some hf
        rw [List.inj_on_of_nodup_map hok.list.ptrs (List.mem_of_find?_eq_some hf) hp' hy]

theorem hasGenerator_state {peer : RdePeer} {aid : Aid} (h : peer.hasGenerator rib aid = true) :
    peer.state ≠ .none := by
  unfold RdePeer.hasGenerator at h
  simp only [Bool.and_eq_true, decide_eq_true_eq] at h
  exact h.1.1.1.2

/-- A call of `peer_generate_update` that returns. -/
theorem peerGenerateUpdate_frame (hrib : RibWf cfg s) (hout : OutWf s)
    (hrun : s.peerGenerateUpdate cfg rib pt mode q = .ok s') :
    GenFrame pt s s' ∧ ∀ p ≠ q, Unaffected p s s' := by
  unfold RdeState.peerGenerateUpdate at hrun
  dsimp only at hrun
  split_ifs at hrun with hgen
  · cases hup : upGenerate (s.upEnv cfg) (s.peers q).toOutParams pt
        (prefixChain (cfg.ribFlags rib) (s.entry rib pt).prefixH) (s.entry rib pt).queued mode
        (s.out q pt) with
    | error e =>
      rw [hup] at hrun
      cases hrun
    | ok out' =>
      rw [hup] at hrun
      obtain rfl := Except.ok.inj hrun
      have hframe := upGenerate_frame (hrib.chainOk rib pt) (hrib.queued_nodup rib pt)
        (hrib.queued_path rib pt) (hout.out q pt) hup
      rw [hout.confId] at hframe
      exact setOut_frame hout (hasGenerator_state hgen) hframe
  · obtain rfl := Except.ok.inj hrun
    exact ⟨GenFrame.refl pt hout, fun p _ => Unaffected.refl p s⟩

/-- A call of `peer_generate_update` for a peer with a generator. A regular peer has no stray
    entries unless this is a dump. -/
theorem peerGenerateUpdate_outcome (hrib : RibWf cfg s) (hout : OutWf s) (mode : EvalMode)
    (hgen : (s.peers q).hasGenerator rib pt.aid = true)
    (hstray : (s.peers q).capa.addPathSend pt.aid = false → mode = .sync ∨
      ∀ e ∈ (adjoutEntries q (s.adjout pt)).head?, e.1 = 0) :
    ∃ r, s.peerGenerateUpdate cfg rib pt mode q = r.map (s.setOut q pt) ∧
      GenOutcome (s.peers q).toOutParams pt mode
        (genIds (s.peers q).toOutParams pt.aid mode ((s.entry rib pt).pq.map (·.1)) (s.out q pt))
        (newIds (s.peers q).toOutParams pt.aid
          (prefixChain (cfg.ribFlags rib) (s.entry rib pt).prefixH))
        (selPeer (s.upEnv cfg) (s.peers q).toOutParams pt.aid
          (prefixChain (cfg.ribFlags rib) (s.entry rib pt).prefixH)) (s.out q pt) r := by
  refine ⟨_, if_pos hgen, ?_⟩
  rw [← queued_ids]
  refine upGenerate_spec (s.upEnv cfg) (s.peers q).toOutParams mode (hrib.chainOk rib pt)
    (hrib.queued_nodup rib pt) (hrib.queued_path rib pt) ?_ (hout.out q pt)
  rw [hout.confId]
  exact hstray

/-! ## All peers -/

/-- The loop over the peers, seen from one of them. -/
theorem generateAll_split (hrib : RibWf cfg s) (hout : OutWf s) {l : List PeerId} (hnd : l.Nodup)
    (hrun : s.generateAll cfg rib pt mode l = .ok s') (q : PeerId) :
    ∃ s₁ s₂, GenFrame pt s s₁ ∧ Unaffected q s s₁ ∧
      (q ∈ l ∧ s₁.peerGenerateUpdate cfg rib pt mode q = .ok s₂ ∨ q ∉ l ∧ s₂ = s₁) ∧
      GenFrame pt s₂ s' ∧ Unaffected q s₂ s' := by
  induction l generalizing s with
  | nil =>
    obtain rfl := Except.ok.inj hrun
    exact ⟨s, s, GenFrame.refl pt hout, Unaffected.refl q s, Or.inr ⟨List.not_mem_nil, rfl⟩,
      GenFrame.refl pt hout, Unaffected.refl q s⟩
  | cons p l ih =>
    obtain ⟨hnot, hnd⟩ := List.nodup_cons.mp hnd
    rw [RdeState.generateAll] at hrun
    cases hp : s.peerGenerateUpdate cfg rib pt mode p with
    | error e =>
      simp only [hp, bind, Except.bind] at hrun
      cases hrun
    | ok sₚ =>
      simp only [hp, bind, Except.bind] at hrun
      obtain ⟨hframe, hother⟩ := peerGenerateUpdate_frame hrib hout hp
      obtain ⟨s₁, s₂, hf₁, hu₁, hmid, hf₂, hu₂⟩ := ih (hframe.ribWf hrib) hframe.wf hnd hrun
      by_cases hq : q = p
      · -- the rest of the loop is for other peers
        subst hq
        rcases hmid with ⟨hmem, _⟩ | ⟨_, rfl⟩
        · exact absurd hmem hnot
        · exact ⟨s, sₚ, GenFrame.refl pt hout, Unaffected.refl q s,
            Or.inl ⟨List.mem_cons_self .., hp⟩, hf₁.trans hf₂, hu₁.trans hu₂⟩
      · refine ⟨s₁, s₂, hframe.trans hf₁, (hother q hq).trans hu₁, ?_, hf₂, hu₂⟩
        refine hmid.imp (And.imp_left (List.mem_cons_of_mem p)) (And.imp_left fun hmem hc => ?_)
        rcases List.mem_cons.mp hc with heq | hc
        · exact hq heq
        · exact hmem hc

theorem generateAll_frame (hrib : RibWf cfg s) (hout : OutWf s) {l : List PeerId} (hnd : l.Nodup)
    (hrun : s.generateAll cfg rib pt mode l = .ok s') : GenFrame pt s s' := by
  obtain ⟨s₁, s₂, hf₁, _, hmid, hf₂, _⟩ := generateAll_split hrib hout hnd hrun 0
  rcases hmid with ⟨_, hp⟩ | ⟨_, rfl⟩
  · obtain ⟨hframe, _⟩ := peerGenerateUpdate_frame (hf₁.ribWf hrib) hf₁.wf hp
    exact (hf₁.trans hframe).trans hf₂
  · exact hf₁.trans hf₂

theorem collect_frame (h : OutWf s) (pt : PtEntry) :
    GenFrame pt s (s.collect pt) ∧ ∀ q, Unaffected q s (s.collect pt) := by
  have hadj : ∀ k, (s.collect pt).adjout k =
      if k = pt then adjoutPrefixCollect (s.adjout pt) else s.adjout k := fun _ => rfl
  refine ⟨⟨⟨h.confId, fun k => ?_, h.pend⟩, rfl, rfl, rfl, rfl, rfl, fun _ => rfl,
    fun _ => Or.inl rfl, fun k hk => ?_, fun _ _ _ => rfl⟩, fun q => ⟨rfl, fun k => ?_⟩⟩
  · rw [hadj]
    split_ifs
    · exact (h.adjout pt).collect
    · exact h.adjout k
  · rw [hadj, if_neg hk]
  · rw [hadj]
    split_ifs with hk
    · rw [hk, adjoutEntries_collect]
    · rfl

/-! ## Processing a queued entry -/

/-- The first entry is taken from the queue of a peer. -/
def RdeState.popQueue (s : RdeState) (p : PeerId) (rest : List (ℕ × PtEntry)) : RdeState :=
  s.setPeer p { s.peers p with ribPq := rest }

theorem popQueue_base (s : RdeState) (p : PeerId) (rest : List (ℕ × PtEntry)) (q : PeerId) :
    ((s.popQueue p rest).peers q).base = (s.peers q).base := by
  unfold RdeState.popQueue RdeState.setPeer
  dsimp only
  split_ifs with h
  · rw [h]
    rfl
  · rfl

/-- One call handles the head of the peer's queue, if the entry is still queued. -/
theorem peerProcessUpdates_cases (hrun : s.peerProcessUpdates cfg p = .ok s') :
    s' = s ∨ ∃ rib k rest, (s.peers p).ribPq = (rib, k) :: rest ∧
      ((s.entry rib k).pqMode = none ∧ s' = s.popQueue p rest ∨
        ∃ mode s₁, (s.entry rib k).pqMode = some mode ∧
          (s.popQueue p rest).generateAll cfg rib k mode cfg.peertable = .ok s₁ ∧
          s' = (s₁.collect k).ribPqDequeue rib k) := by
  unfold RdeState.peerProcessUpdates at hrun
  cases hpq : (s.peers p).ribPq with
  | nil =>
    rw [hpq] at hrun
    exact Or.inl (Except.ok.inj hrun).symm
  | cons e rest =>
    obtain ⟨rib, k⟩ := e
    right
    refine ⟨rib, k, rest, rfl, ?_⟩
    have hpop : s.setPeer p { s.peers p with ribPq := rest } = s.popQueue p rest := rfl
    rw [hpq] at hrun
    dsimp only at hrun
    rw [hpop] at hrun
    cases hm : ((s.popQueue p rest).entry rib k).pqMode with
    | none =>
      rw [hm] at hrun
      exact Or.inl ⟨hm, (Except.ok.inj hrun).symm⟩
    | some mode =>
      rw [hm] at hrun
      dsimp only at hrun
      cases hgen : (s.popQueue p rest).generateAll cfg rib k mode cfg.peertable with
      | error e =>
        rw [hgen] at hrun
        cases hrun
      | ok s₁ =>
        rw [hgen] at hrun
        exact Or.inr ⟨mode, s₁, hm, hgen, (Except.ok.inj hrun).symm⟩

/-- What processing a queued entry leaves alone. -/
structure ProcessFrame (cfg : RdeConfig) (s s' : RdeState) : Prop where
  rib : RibWf cfg s'
  out : OutWf s'
  queued : QueueOk s → QueueOk s'
  prefixH : ∀ r k, (s'.entry r k).prefixH = (s.entry r k).prefixH
  keys : s'.keys = s.keys
  dumps : s'.dumps = s.dumps
  evalAll : s'.evalAll = s.evalAll
  fixed : ∀ q, (s'.peers q).fixed.base = (s.peers q).fixed.base
  state : ∀ q, (s'.peers q).state = (s.peers q).state ∨
    (s'.peers q).state = .err ∧ (s.peers q).state ≠ .none

/-- What processing a queued entry does for one peer: nothing, or one call of its generator with
    the mode of the entry. -/
inductive ProcessedFor (cfg : RdeConfig) (q : PeerId) (s s' : RdeState) : Prop
  | skip (peer : (s'.peers q).base = (s.peers q).base)
      (entries : ∀ k, adjoutEntries q (s'.adjout k) = adjoutEntries q (s.adjout k))
      (queue : q ∈ cfg.peertable → ∀ rib k, (s.peers q).hasGenerator rib k.aid = true →
        s'.entry rib k = s.entry rib k)
  | gen {rib : ℕ} {k : PtEntry} {mode : EvalMode} {s₁ s₂ : RdeState}
      (gen : (s₁.peers q).hasGenerator rib k.aid = true)
      (queued : (s.entry rib k).pqMode = some mode) (rib₁ : RibWf cfg s₁) (out₁ : OutWf s₁)
      (entry₁ : s₁.entry = s.entry) (upEnv₁ : s₁.upEnv cfg = s.upEnv cfg)
      (peer₁ : (s₁.peers q).base = (s.peers q).base)
      (entries₁ : ∀ k, adjoutEntries q (s₁.adjout k) = adjoutEntries q (s.adjout k))
      (run : s₁.peerGenerateUpdate cfg rib k mode q = .ok s₂)
      (peer₂ : s'.peers q = s₂.peers q)
      (entries₂ : ∀ k, adjoutEntries q (s'.adjout k) = adjoutEntries q (s₂.adjout k))
      (entry₂ : s'.entry = (s.ribPqDequeue rib k).entry)

/-- The frame of a queue without its first entry. -/
theorem popQueue_frame (hrib : RibWf cfg s) (hout : OutWf s) (p : PeerId)
    (rest : List (ℕ × PtEntry)) :
    RibWf cfg (s.popQueue p rest) ∧ OutWf (s.popQueue p rest) ∧
      (s.popQueue p rest).upEnv cfg = s.upEnv cfg := by
  have hparams : ∀ q, ((s.popQueue p rest).peers q).toOutParams = (s.peers q).toOutParams :=
    fun q => (congrArg RdePeer.toOutParams (popQueue_base s p rest q) : _)
  refine ⟨⟨hrib.entry, hrib.old, hrib.raw, hrib.sorted, hrib.keys⟩, ⟨fun q => ?_, hout.adjout,
    fun q aid => ?_⟩, ?_⟩
  · rw [hparams]
    exact hout.confId q
  · rw [show ((s.popQueue p rest).peers q).pend = (s.peers q).pend from
      (congrArg RdePeer.pend (popQueue_base s p rest q) : _)]
    exact hout.pend q aid
  · unfold RdeState.upEnv
    congr 1
    funext q
    rw [hparams]

theorem ribPqDequeue_ribWf (hrib : RibWf cfg s) (rib : ℕ) (pt : PtEntry) :
    RibWf cfg (s.ribPqDequeue rib pt) := by
  refine hrib.setEntry rfl rfl rfl rfl (fun hev => ?_) (fun hev => hrib.old rib hev pt)
    (fun _ => ⟨rfl, rfl⟩) (hrib.keys rib pt)
  have hok := hrib.entry rib hev pt
  exact ⟨hok.list, List.nodup_nil, by simp, fun h => absurd rfl h, by simp, fun h => absurd rfl h⟩

/-- A queue without the first entry, which has no mode any more. -/
theorem QueueOk.pop {rest : List (ℕ × PtEntry)} (h : QueueOk s)
    (hpq : (s.peers p).ribPq = (rib, pt) :: rest)
    (hribPq : ∀ q, (s'.peers q).ribPq = ((s.popQueue p rest).peers q).ribPq)
    (hsame : ∀ r k, (s'.entry r k).pqMode ≠ none →
      (s.entry r k).pqMode ≠ none ∧ ¬(r = rib ∧ k = pt)) : QueueOk s' := by
  intro r k hm
  obtain ⟨hm, hne⟩ := hsame r k hm
  obtain ⟨q, hq⟩ := h r k hm
  refine ⟨q, ?_⟩
  rw [hribPq]
  unfold RdeState.popQueue RdeState.setPeer
  dsimp only
  split_ifs with hqp
  · rw [hqp, hpq] at hq
    rcases List.mem_cons.mp hq with heq | hq
    · exact absurd (Prod.mk.inj heq) hne
    · exact hq
  · exact hq

theorem ribPqDequeue_entry (rib : ℕ) (pt : PtEntry) (r : ℕ) (k : PtEntry) :
    (s.ribPqDequeue rib pt).entry r k = if r = rib ∧ k = pt then
      { s.entry rib pt with pq := [], pqMode := none } else s.entry r k := rfl

/-- `peer_process_updates` -/
theorem peerProcessUpdates_frame (hrib : RibWf cfg s) (hout : OutWf s)
    (hrun : s.peerProcessUpdates cfg p = .ok s') : ProcessFrame cfg s s' := by
  rcases peerProcessUpdates_cases hrun with rfl | ⟨rib, k, rest, hpq, hcase⟩
  · exact ⟨hrib, hout, id, fun _ _ => rfl, rfl, rfl, rfl, fun _ => rfl, fun _ => Or.inl rfl⟩
  obtain ⟨hrib₀, hout₀, _⟩ := popQueue_frame hrib hout p rest
  have hfixed₀ : ∀ q, ((s.popQueue p rest).peers q).fixed.base = (s.peers q).fixed.base :=
    fun q => (congrArg RdePeer.fixed (popQueue_base s p rest q) : _)
  have hstate₀ : ∀ q, ((s.popQueue p rest).peers q).state = (s.peers q).state :=
    fun q => (congrArg RdePeer.state (popQueue_base s p rest q) : _)
  -- an entry queued for no mode is only dequeued
  rcases hcase with ⟨hm, rfl⟩ | ⟨mode, s₁, hm, hgen, rfl⟩
  · refine ⟨hrib₀, hout₀, fun hq => ?_, fun _ _ => rfl, rfl, rfl, rfl, hfixed₀,
      fun q => Or.inl (hstate₀ q)⟩
    refine hq.pop hpq (fun _ => rfl) fun r k' hne => ⟨hne, ?_⟩
    rintro ⟨rfl, rfl⟩
    exact hne hm
  · have hframe := (generateAll_frame hrib₀ hout₀ cfg.nodup hgen).trans
      (collect_frame (generateAll_frame hrib₀ hout₀ cfg.nodup hgen).wf k).1
    set s₂ := s₁.collect k
    -- the entry leaves the queue, all others keep what they had
    have hentry : ∀ r k', (s₂.ribPqDequeue rib k).entry r k' = if r = rib ∧ k' = k then
        { s.entry rib k with pq := [], pqMode := none } else s.entry r k' := by
      intro r k'
      rw [ribPqDequeue_entry, hframe.entry]
      rfl
    refine ⟨ribPqDequeue_ribWf (hframe.ribWf hrib₀) rib k,
      ⟨hframe.wf.confId, hframe.wf.adjout, hframe.wf.pend⟩, fun hq => ?_, fun r k' =>
        ?_, hframe.keys,
      hframe.dumps, hframe.evalAll, fun q => ?_, fun q => ?_⟩
    · refine hq.pop hpq (fun q => hframe.ribPq q) fun r k' hne => ?_
      rw [hentry] at hne
      split_ifs at hne with hc
      · exact absurd rfl hne
      · exact ⟨hne, hc⟩
    · rw [hentry]
      split_ifs with hc
      · rw [hc.1, hc.2]
      · rfl
    · rw [← hfixed₀ q]
      exact congrArg RdePeer.base (hframe.fixed q)
    · rw [← hstate₀ q]
      exact hframe.state q

/-- `peer_process_updates`, seen from one peer. -/
theorem peerProcessUpdates_for (hrib : RibWf cfg s) (hout : OutWf s)
    (hrun : s.peerProcessUpdates cfg p = .ok s') (q : PeerId) : ProcessedFor cfg q s s' := by
  rcases peerProcessUpdates_cases hrun with rfl | ⟨rib, k, rest, hpq, hcase⟩
  · exact .skip rfl (fun _ => rfl) fun _ _ _ _ => rfl
  obtain ⟨hrib₀, hout₀, henv₀⟩ := popQueue_frame hrib hout p rest
  have hbase := popQueue_base s p rest q
  rcases hcase with ⟨hm, rfl⟩ | ⟨mode, s', hm, hgen, rfl⟩
  · exact .skip hbase (fun _ => rfl) fun _ _ _ _ => rfl
  obtain ⟨s₁, s₂, hf₁, hu₁, hmid, hf₂, hu₂⟩ := generateAll_split hrib₀ hout₀ cfg.nodup hgen q
  obtain ⟨hfc, huc⟩ := collect_frame hf₂.wf k
  have hbase₁ : (s₁.peers q).base = (s.peers q).base := by
    rw [hu₁.peer, hbase]
  have hgen₁ : ∀ r aid, (s₁.peers q).hasGenerator r aid = (s.peers q).hasGenerator r aid :=
    fun r aid => (congrArg (fun x : RdePeer => x.hasGenerator r aid) hbase₁ : _)
  have hu := hu₂.trans (huc q)
  -- the generator is called if there is one
  have hskip : (q ∉ cfg.peertable ∨ (s.peers q).hasGenerator rib k.aid = false) → s₂ = s₁ →
      ProcessedFor cfg q s ((s'.collect k).ribPqDequeue rib k) := by
    rintro hno rfl
    refine .skip ?_ (fun k' => ?_) fun hmem r k' hg => ?_
    · rw [show ((s'.collect k).ribPqDequeue rib k).peers q = _ from hu.peer, hbase₁]
    · exact (hu.entries k').trans (hu₁.entries k')
    · rw [ribPqDequeue_entry, if_neg, hfc.entry, hf₂.entry, hf₁.entry]
      · rfl
      · rintro ⟨rfl, rfl⟩
        rcases hno with hno | hno
        · exact hno hmem
        · rw [hno] at hg
          cases hg
  rcases hmid with ⟨hmem, hrun₁⟩ | ⟨hmem, rfl⟩
  · by_cases hg : (s.peers q).hasGenerator rib k.aid = true
    · obtain ⟨hframe, _⟩ := peerGenerateUpdate_frame (hf₁.ribWf hrib₀) hf₁.wf hrun₁
      refine .gen ((hgen₁ rib k.aid).trans hg) hm (hf₁.ribWf hrib₀) hf₁.wf hf₁.entry
        (hf₁.upEnv.trans henv₀) hbase₁ hu₁.entries hrun₁ hu.peer hu.entries ?_
      funext r k'
      rw [ribPqDequeue_entry, ribPqDequeue_entry, hfc.entry, hf₂.entry, hframe.entry, hf₁.entry]
      rfl
    · have hg : (s.peers q).hasGenerator rib k.aid = false := by simpa using hg
      refine hskip (Or.inr hg) ?_
      unfold RdeState.peerGenerateUpdate at hrun₁
      dsimp only at hrun₁
      rw [hgen₁, hg, if_neg (by simp)] at hrun₁
      exact (Except.ok.inj hrun₁).symm
  · exact hskip (Or.inl hmem) rfl

end Bgpd.Rde
