import Bgpd.Rde.Generate

/-!
# Incremental Updates

The invariant that ties the Adj-RIB-Out of a peer to its Loc-RIB: for every path id a change is
queued, or the peer has what it is to be told. Changes of the RIBs keep it, and processing a
queued entry brings the peer in line.

## Main results

- `RdeState.Current`: the invariant for a peer and a destination
- `RibChange.current`: changes of the RIBs
- `peerGenerateUpdate_inLine`, `peerProcessUpdates_current`: generation
-/

namespace Bgpd.Rde

open Bgpd.Lib

variable {cfg : RdeConfig} {s s₁ s' : RdeState} {rib : ℕ} {pt : PtEntry} {mode : EvalMode}
  {q p : PeerId} {id : ℕ}

/-! ## The invariant -/

/-- The entries have the path ids that go with the capabilities. -/
def IdsOk (peer : OutParams) (aid : Aid) (view : ℕ → Option AdjoutAttr) : Prop :=
  ∀ id, view id ≠ none → (peer.capa.addPathSend aid = true ↔ id ≠ 0)

/-- The entry of a destination in the Loc-RIB of a peer. -/
def RdeState.locEntry (s : RdeState) (q : PeerId) (pt : PtEntry) : RibEntry :=
  s.entry (s.peers q).locRibId pt

/-- The eligible paths of a destination in the Loc-RIB of a peer. -/
def RdeState.locChain (cfg : RdeConfig) (s : RdeState) (q : PeerId) (pt : PtEntry) : List Prefix :=
  prefixChain (cfg.ribFlags (s.peers q).locRibId) (s.locEntry q pt).prefixH

/-- Does the peer get updates for an address family? -/
def RdeState.generates (s : RdeState) (q : PeerId) (aid : Aid) : Bool :=
  (s.peers q).hasGenerator (s.peers q).locRibId aid

/-- A change is queued for the peer. -/
def RdeState.Pending (s : RdeState) (q : PeerId) (pt : PtEntry) (id : ℕ) : Prop :=
  Dirty (s.peers q).toOutParams pt.aid (s.locEntry q pt) id

/-- The peer has what it is to be told. -/
def RdeState.Synced (cfg : RdeConfig) (s : RdeState) (q : PeerId) (pt : PtEntry) (id : ℕ) : Prop :=
  InLine (s.upEnv cfg) (s.peers q).toOutParams pt.aid (s.locChain cfg q pt)
    (adjoutView q (s.adjout pt)) id

/-- The peer has what it is to be told, or a change is queued. -/
def RdeState.Current (cfg : RdeConfig) (s : RdeState) (q : PeerId) (pt : PtEntry) : Prop :=
  ∀ id, s.Pending q pt id ∨ s.Synced cfg q pt id

/-- `rde_eval_all` is on if the peer needs it. -/
def RdeState.evalAllOk (s : RdeState) (q : PeerId) (aid : Aid) : Prop :=
  (s.peers q).needsAll aid = true → s.evalAll = true

theorem generates_of_hasGenerator {aid : Aid} (h : (s.peers q).hasGenerator rib aid = true) :
    (s.peers q).locRibId = rib ∧ s.generates q aid = true := by
  have hrib : (s.peers q).locRibId = rib := by
    unfold RdePeer.hasGenerator at h
    simp only [Bool.and_eq_true, decide_eq_true_eq] at h
    exact h.1.1.2
  refine ⟨hrib, ?_⟩
  unfold RdeState.generates
  rw [hrib]
  exact h

/-- An entry that is not queued has no changes. -/
theorem RibWf.not_pending (h : RibWf cfg s) (hm : (s.locEntry q pt).pqMode = none) :
    ¬s.Pending q pt id := by
  cases hev : (cfg.ribFlags (s.peers q).locRibId).noevaluate with
  | false => exact not_dirty (h.entry _ hev pt) hm
  | true =>
    unfold RdeState.Pending Dirty
    simp [RdeState.locEntry, (h.raw _ hev pt).1, (h.raw _ hev pt).2]

/-! ## Changes of the RIBs -/

theorem RibChange.generates (h : RibChange cfg s s') (q : PeerId) (aid : Aid) :
    s'.generates q aid = s.generates q aid := by
  unfold RdeState.generates RdePeer.hasGenerator
  rw [h.outParams q, h.state q]

theorem RibChange.evalAllOk (h : RibChange cfg s s') {aid : Aid} (hall : s.evalAllOk q aid) :
    s'.evalAllOk q aid := by
  unfold RdeState.evalAllOk
  rw [h.outParams q, h.evalAll]
  exact hall

/-- Changes of the RIBs are queued, or do not matter for the peer. -/
theorem RibChange.current (h : RibChange cfg s s') (hwf : RibWf cfg s)
    (hall : s.evalAllOk q pt.aid) (hcur : s.Pending q pt id ∨ s.Synced cfg q pt id) :
    s'.Pending q pt id ∨ s'.Synced cfg q pt id := by
  unfold RdeState.Pending RdeState.Synced RdeState.locChain RdeState.locEntry at hcur ⊢
  rw [h.outParams q, h.upEnv, h.adjout]
  cases hev : (cfg.ribFlags (s.peers q).locRibId).noevaluate with
  | false =>
    have hchain : ∀ {s}, RibWf cfg s → ∀ {rib}, (cfg.ribFlags rib).noevaluate = false →
        prefixChain (cfg.ribFlags rib) (s.entry rib pt).prefixH =
          eligibles (s.entry rib pt).prefixH := by
      intro s hs rib hr
      rw [hs.chain, hr]
      rfl
    rw [hchain hwf hev] at hcur
    rw [hchain h.wf hev]
    exact dirty_or_inLine_steps (hwf.entry _ hev pt) (h.entry _ hev pt) hall hcur
  | true =>
    rw [hwf.chain, hev] at hcur
    rw [h.wf.chain, hev]
    refine hcur.imp_left fun hd => ?_
    exact absurd hd (hwf.not_pending (hwf.raw _ hev pt).2)

/-! ## Generation -/

/-- The selection has the path ids that go with the capabilities. -/
theorem selPeer_ids {env : UpEnv} {peer : OutParams} {chain : List Prefix}
    (hchain : ChainOk pt chain)
    {f : ℕ → Option AdjoutAttr} {aid : Aid} (hsel : selPeer env peer aid chain = .ok f) :
    IdsOk peer aid f := by
  intro id hid
  have hmem := selPeer_newIds hsel hid
  unfold newIds at hmem
  split_ifs at hmem with hadd
  · obtain ⟨x, hx, rfl⟩ := List.mem_map.mp hmem
    exact ⟨fun _ => hchain.ne x hx, fun _ => hadd⟩
  · obtain rfl : id = 0 := hmem
    simp [hadd]

theorem IdsOk.eq_none {peer : OutParams} {aid : Aid} {view : ℕ → Option AdjoutAttr}
    (h : IdsOk peer aid view) (hid : ¬(peer.capa.addPathSend aid = true ↔ id ≠ 0)) :
    view id = none := by
  by_contra hne
  exact hid (h id hne)

/-- A regular peer has no entries with other path ids than 0. -/
theorem IdsOk.head (hids : IdsOk (s.peers q).toOutParams pt.aid (adjoutView q (s.adjout pt)))
    (hadd : (s.peers q).capa.addPathSend pt.aid = false) :
    ∀ e ∈ (adjoutEntries q (s.adjout pt)).head?, e.1 = 0 := by
  intro e he
  have hmem : e ∈ adjoutEntries q (s.adjout pt) := List.mem_of_mem_head? he
  have hview : adjoutView q (s.adjout pt) e.1 ≠ none := by
    rw [Ne, adjoutView_eq_none_iff]
    exact fun hc => hc e hmem rfl
  by_contra hne
  have := (hids e.1 hview).mpr hne
  rw [hadd] at this
  cases this

/-- Path ids that a generator does not take care of are in line if they were before: they do not
    go with the capabilities, or no change is queued for them. -/
theorem inLine_of_not_genIds {env : UpEnv} {peer : OutParams} {chain : List Prefix} {re : RibEntry}
    {out : Out} {f : ℕ → Option AdjoutAttr} {view : ℕ → Option AdjoutAttr}
    (hids : IdsOk peer pt.aid view) (hfids : IdsOk peer pt.aid f)
    (hsel : selPeer env peer pt.aid chain = .ok f)
    (hmode : mode = .sync ∨ re.pqMode = some mode ∧
      (Dirty peer pt.aid re id ∨ InLine env peer pt.aid chain view id))
    (hid : id ∉ genIds peer pt.aid mode (re.pq.map (·.1)) out) : view id = f id := by
  -- an id that is not dirty was in line before the round
  have hdirty : ¬Dirty peer pt.aid re id → mode ≠ .sync → view id = f id := by
    intro hnot hsync
    obtain ⟨g, hg, hview⟩ := ((hmode.resolve_left hsync).2).resolve_left hnot
    rw [hsel] at hg
    rw [hview, Except.ok.inj hg]
  -- with one path per destination only id 0 is in use
  have hcapa : ¬(peer.capa.addPathSend pt.aid = true ↔ id ≠ 0) → view id = f id := by
    intro hne
    rw [hids.eq_none hne, hfids.eq_none hne]
  unfold genIds at hid
  by_cases hadd : peer.capa.addPathSend pt.aid = true
  · rw [if_pos hadd] at hid
    -- a neighbour with add-path: only the ids that are queued are generated
    by_cases hall : peer.eval.mode = .all ∧ ¬(mode = .sync ∨ mode = .reeval)
    · rw [if_pos hall] at hid
      refine hdirty (fun hd => hid ?_) fun hc => hall.2 (Or.inl hc)
      unfold Dirty at hd
      rwa [if_pos ⟨hadd, hall.1⟩] at hd
    · rw [if_neg hall] at hid
      exact hcapa fun hiff => hid (hiff.mp hadd)
  · rw [if_neg hadd] at hid
    -- this neighbour takes no notice of paths that are not the best
    by_cases hskip : mode = .all ∧ (!peer.flags.evaluateAll) = true
    · rw [if_pos hskip] at hid
      have hsync : mode ≠ .sync := by
        rw [hskip.1]
        decide
      refine hdirty (fun hd => ?_) hsync
      unfold Dirty OutParams.needsAll at hd
      have hflag : peer.flags.evaluateAll = false := by simpa using hskip.2
      rw [if_neg fun hc => hadd hc.1, if_neg (by simp [hadd, hflag]),
        (hmode.resolve_left hsync).1, hskip.1] at hd
      cases hd
    · rw [if_neg hskip] at hid
      refine hcapa fun hiff => hadd (hiff.mpr fun h0 => hid (Or.inl h0))

/-- A generator that was called with the mode of the queued change, or for a dump, leaves the
    peer in line, as far as it was current before; or the session was ended by the outbound
    limit. -/
theorem peerGenerateUpdate_inLine (hrib : RibWf cfg s) (hout : OutWf s)
    (hgen : s.generates q pt.aid = true)
    (hids : IdsOk (s.peers q).toOutParams pt.aid (adjoutView q (s.adjout pt)))
    (hmode : mode = .sync ∨ (s.locEntry q pt).pqMode = some mode)
    (hrun : s.peerGenerateUpdate cfg (s.peers q).locRibId pt mode q = .ok s') :
    IdsOk (s'.peers q).toOutParams pt.aid (adjoutView q (s'.adjout pt)) ∧
      ((s'.peers q).state = .err ∧ (s.peers q).conf.maxOutPrefix ≠ 0 ∨
        (s'.peers q).state = (s.peers q).state ∧ ∀ id, s'.Synced cfg q pt id ∨
          mode ≠ .sync ∧ ¬(s.Pending q pt id ∨ s.Synced cfg q pt id) ∧
            adjoutView q (s'.adjout pt) id = adjoutView q (s.adjout pt) id) := by
  obtain ⟨hframe, _⟩ := peerGenerateUpdate_frame hrib hout hrun
  have hparams := hframe.outParams q
  obtain ⟨r, hr, hspec⟩ := peerGenerateUpdate_outcome hrib hout mode hgen fun hadd =>
    Or.inr (hids.head hadd)
  have hchain := hrib.chainOk (s.peers q).locRibId pt
  rw [hr] at hrun
  cases r with
  | error e => cases hrun
  | ok out' =>
    obtain rfl := Except.ok.inj hrun
    have hview : ∀ id, adjoutView q ((s.setOut q pt out').adjout pt) id =
        adjoutView q out'.adjout id := by
      intro id
      rw [show (s.setOut q pt out').adjout pt = out'.adjout from if_pos rfl]
    have hstate : ((s.setOut q pt out').peers q).state = out'.state := by
      rw [show (s.setOut q pt out').peers q = _ from if_pos rfl]
    rw [hparams, hstate]
    cases hspec with
    -- the neighbour's limit was reached: its session ends
    | limit frame state max view =>
      refine ⟨fun id hid => ?_, Or.inl ⟨state, max⟩⟩
      rw [hview] at hid
      by_cases hnew : id ∈ newIds (s.peers q).toOutParams pt.aid
          (prefixChain (cfg.ribFlags (s.peers q).locRibId)
            (s.entry (s.peers q).locRibId pt).prefixH)
      · unfold newIds at hnew
        split_ifs at hnew with hadd
        · obtain ⟨x, hx, rfl⟩ := List.mem_map.mp hnew
          exact ⟨fun _ => hchain.ne x hx, fun _ => hadd⟩
        · obtain rfl : id = 0 := hnew
          simp [hadd]
      · have hold := view id hnew
        rw [hout.confId] at hold
        rcases hold with hold | hold
        · exact absurd hold hid
        · exact hids id (hold ▸ hid)
    -- the generator has run to its end
    | @done f _ hsel gen state _ =>
      rw [hout.confId] at gen
      have hfids := selPeer_ids hchain hsel
      have hsync : ∀ id, adjoutView q ((s.setOut q pt out').adjout pt) id = f id →
          (s.setOut q pt out').Synced cfg q pt id := by
        intro id hid
        unfold RdeState.Synced RdeState.locChain RdeState.locEntry
        rw [hparams, hframe.upEnv, hframe.entry]
        exact ⟨f, hsel, hid⟩
      have hall : ∀ id, adjoutView q ((s.setOut q pt out').adjout pt) id = f id ∨
          mode ≠ .sync ∧ ¬(s.Pending q pt id ∨ s.Synced cfg q pt id) ∧
            adjoutView q ((s.setOut q pt out').adjout pt) id = adjoutView q (s.adjout pt) id := by
        intro id
        rw [hview]
        by_cases hid : id ∈ genIds (s.peers q).toOutParams pt.aid mode
            ((s.entry (s.peers q).locRibId pt).pq.map (·.1)) (s.out q pt)
        · exact Or.inl (gen.view id hid)
        -- an id that is not generated keeps its entry
        · rw [gen.viewRest id hid]
          by_cases hcur : mode = .sync ∨ s.Pending q pt id ∨ s.Synced cfg q pt id
          · left
            refine inLine_of_not_genIds hids hfids hsel ?_ hid
            rcases hmode with hmode | hmode
            · exact Or.inl hmode
            · exact hcur.imp_right fun hcur => ⟨hmode, hcur⟩
          · rw [not_or] at hcur
            exact Or.inr ⟨hcur.1, hcur.2, rfl⟩
      refine ⟨fun id hid => ?_, Or.inr ⟨state, fun id => (hall id).imp_left (hsync id)⟩⟩
      rcases hall id with heq | ⟨_, _, heq⟩
      · exact hfids id (heq ▸ hid)
      · exact hids id (heq ▸ hid)

/-! ## Processing a queued entry -/

theorem synced_congr (hp : (s'.peers q).toOutParams = (s.peers q).toOutParams)
    (henv : s'.upEnv cfg = s.upEnv cfg)
    (hh : (s'.locEntry q pt).prefixH = (s.locEntry q pt).prefixH)
    (hview : adjoutEntries q (s'.adjout pt) = adjoutEntries q (s.adjout pt)) :
    s'.Synced cfg q pt id ↔ s.Synced cfg q pt id := by
  have hview : adjoutView q (s'.adjout pt) = adjoutView q (s.adjout pt) := by
    funext id
    unfold adjoutView
    rw [hview]
  unfold RdeState.Synced RdeState.locChain
  rw [hp, henv, hh, hview]

theorem pending_congr (hp : (s'.peers q).toOutParams = (s.peers q).toOutParams)
    (hentry : s'.locEntry q pt = s.locEntry q pt) :
    s'.Pending q pt id ↔ s.Pending q pt id := by
  unfold RdeState.Pending
  rw [hp, hentry]

section Process

variable (h : ProcessFrame cfg s s')
include h

theorem ProcessFrame.outParams (q : PeerId) : (s'.peers q).toOutParams = (s.peers q).toOutParams :=
  (congrArg RdePeer.toOutParams (h.fixed q) : _)

theorem ProcessFrame.upEnv : s'.upEnv cfg = s.upEnv cfg := by
  unfold RdeState.upEnv
  congr 1
  funext q
  rw [h.outParams q]

theorem ProcessFrame.generates (q : PeerId) (aid : Aid) :
    s'.generates q aid = s.generates q aid := by
  unfold RdeState.generates RdePeer.hasGenerator
  rw [h.outParams q]
  rcases h.state q with hs | ⟨hs, hne⟩
  · rw [hs]
  · rw [hs, decide_eq_true hne]
    rfl

theorem ProcessFrame.locEntry_prefixH (q : PeerId) (pt : PtEntry) :
    (s'.locEntry q pt).prefixH = (s.locEntry q pt).prefixH := by
  unfold RdeState.locEntry
  rw [h.outParams q]
  exact h.prefixH _ pt

end Process

/-- A peer that was current for a path id still is, and otherwise is current now or its entry was
    not touched. -/
def Follows (cfg : RdeConfig) (q : PeerId) (pt : PtEntry) (s s' : RdeState) : Prop :=
  ∀ id, (s'.Pending q pt id ∨ s'.Synced cfg q pt id) ∨
    ¬(s.Pending q pt id ∨ s.Synced cfg q pt id) ∧
      adjoutView q (s'.adjout pt) id = adjoutView q (s.adjout pt) id

/-- Processing a queued entry keeps a peer current, unless the outbound limit ends the session. -/
theorem ProcessedFor.follows (h : ProcessedFor cfg q s s') (hframe : ProcessFrame cfg s s')
    (hmem : q ∈ cfg.peertable) (hgen : s.generates q pt.aid = true)
    (hids : IdsOk (s.peers q).toOutParams pt.aid (adjoutView q (s.adjout pt))) :
    IdsOk (s'.peers q).toOutParams pt.aid (adjoutView q (s'.adjout pt)) ∧
      ((s'.peers q).state = .err ∧ (s.peers q).conf.maxOutPrefix ≠ 0 ∨
        Follows cfg q pt s s') := by
  have hp := hframe.outParams q
  have henv := hframe.upEnv
  have hh := hframe.locEntry_prefixH q pt
  -- the entries and the queue are the same
  have hsame : adjoutEntries q (s'.adjout pt) = adjoutEntries q (s.adjout pt) →
      s'.locEntry q pt = s.locEntry q pt →
      IdsOk (s'.peers q).toOutParams pt.aid (adjoutView q (s'.adjout pt)) ∧
        ((s'.peers q).state = .err ∧ (s.peers q).conf.maxOutPrefix ≠ 0 ∨
          Follows cfg q pt s s') := by
    intro hview hentry
    have hview' : adjoutView q (s'.adjout pt) = adjoutView q (s.adjout pt) := by
      funext id
      unfold adjoutView
      rw [hview]
    refine ⟨?_, Or.inr fun id => ?_⟩
    · rwa [hp, hview']
    · rw [pending_congr hp hentry, synced_congr hp henv hh hview, hview']
      exact (em _).imp_right fun hcur => ⟨hcur, rfl⟩
  cases h with
  | skip peer entries queue =>
    refine hsame (entries pt) ?_
    unfold RdeState.locEntry
    rw [hp]
    exact queue hmem _ pt hgen
  | @gen rib k mode s₁ s₂ gen queued rib₁ out₁ entry₁ upEnv₁ peer₁ entries₁ run peer₂ entries₂
      entry₂ =>
    obtain ⟨hframe₂, _⟩ := peerGenerateUpdate_frame rib₁ out₁ run
    have hp₁ : (s₁.peers q).toOutParams = (s.peers q).toOutParams :=
      (congrArg RdePeer.toOutParams peer₁ : _)
    obtain ⟨hloc, hgen₁⟩ := generates_of_hasGenerator gen
    -- the round is about this destination
    by_cases hk : k = pt
    · subst hk
      have hview : ∀ {s s' : RdeState}, adjoutEntries q (s'.adjout k) =
          adjoutEntries q (s.adjout k) →
          adjoutView q (s'.adjout k) = adjoutView q (s.adjout k) := by
        intro s s' heq
        funext id
        unfold adjoutView
        rw [heq]
      have hentry₁ : s₁.locEntry q k = s.locEntry q k := by
        unfold RdeState.locEntry
        rw [hp₁, entry₁]
      have hids₁ : IdsOk (s₁.peers q).toOutParams k.aid (adjoutView q (s₁.adjout k)) := by
        rwa [hp₁, hview (entries₁ k)]
      have hqueued : (s₁.locEntry q k).pqMode = some mode := by
        unfold RdeState.locEntry
        rw [hloc, entry₁]
        exact queued
      rw [← hloc] at run
      obtain ⟨hids₂, hres⟩ := peerGenerateUpdate_inLine rib₁ out₁ hgen₁ hids₁ (Or.inr hqueued) run
      have hp₂ : (s'.peers q).toOutParams = (s₂.peers q).toOutParams := by rw [peer₂]
      refine ⟨?_, ?_⟩
      · rwa [hp₂, hview (entries₂ k)]
      · rw [peer₂]
        refine hres.imp (fun hlim => ?_) fun ⟨_, hsync⟩ id => ?_
        · rwa [hp₁] at hlim
        · have henv₂ : s'.upEnv cfg = s₂.upEnv cfg := by
            rw [henv, hframe₂.upEnv, upEnv₁]
          have hh₂ : (s'.locEntry q k).prefixH = (s₂.locEntry q k).prefixH := by
            rw [hh]
            unfold RdeState.locEntry
            rw [hframe₂.entry, hframe₂.outParams, hp₁, entry₁]
          rw [synced_congr hp₂ henv₂ hh₂ (entries₂ k), hview (entries₂ k), ← hview (entries₁ k),
            ← pending_congr hp₁ hentry₁,
            ← synced_congr hp₁ upEnv₁ (congrArg RibEntry.prefixH hentry₁) (entries₁ k)]
          exact (hsync id).imp Or.inr And.right
    · -- the entry of another destination
      refine hsame ?_ ?_
      · rw [entries₂ pt, hframe₂.adjout pt fun hc => hk hc.symm, entries₁ pt]
      · unfold RdeState.locEntry
        rw [hp, entry₂, ribPqDequeue_entry, if_neg fun hc => hk hc.2.symm]

/-- Nothing is changed for an address family that a peer gets no updates for. -/
theorem ProcessedFor.entries (h : ProcessedFor cfg q s s') (hgen : s.generates q pt.aid = false) :
    adjoutEntries q (s'.adjout pt) = adjoutEntries q (s.adjout pt) := by
  cases h with
  | skip peer entries queue => exact entries pt
  | @gen rib k mode s₁ s₂ gen queued rib₁ out₁ entry₁ upEnv₁ peer₁ entries₁ run peer₂ entries₂
      entry₂ =>
    obtain ⟨hframe₂, _⟩ := peerGenerateUpdate_frame rib₁ out₁ run
    have hk : pt ≠ k := by
      rintro rfl
      have hgen₁ := (generates_of_hasGenerator gen).2
      rw [show s₁.generates q pt.aid = s.generates q pt.aid from
        (congrArg (fun x : RdePeer => x.hasGenerator x.locRibId pt.aid) peer₁ : _), hgen] at hgen₁
      cases hgen₁
    rw [entries₂ pt, hframe₂.adjout pt hk, entries₁ pt]

end Bgpd.Rde
