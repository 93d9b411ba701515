import Bgpd.Rde.Incremental
import Bgpd.Lib.Run

/-!
# The Adj-RIB-Out Computed from Scratch

What the generator of a peer makes of the Loc-RIB when it is run with `EVAL_SYNC` on an empty
Adj-RIB-Out, and the proof that incremental updates lead to the same: whenever no RIB entry is
queued, every peer has exactly these entries.

## Main results

- `RdeState.fromScratch`: the entries computed from scratch
- `Maintained`: the invariant of runs of changes of the RIBs and queue processing
- `adjout_eq_fromScratch`
-/

namespace Bgpd.Rde

open Bgpd.Lib

variable {cfg : RdeConfig} {s s₁ s' : RdeState} {rib : ℕ} {pt : PtEntry} {q p : PeerId} {id : ℕ}
  {env : UpEnv}

/-! ## Generation from scratch -/

/-- The peer without an outbound limit, which does not change what is advertised but ends the
    session. -/
def OutParams.noLimit (peer : OutParams) : OutParams :=
  { peer with conf := { peer.conf with maxOutPrefix := 0 } }

/-- The entries the generator of a peer computes from its Loc-RIB with `EVAL_SYNC` and an empty
    Adj-RIB-Out. -/
def RdeState.fromScratch (cfg : RdeConfig) (s : RdeState) (q : PeerId) (pt : PtEntry) :
    Except Fatal (List (ℕ × AdjoutAttr)) :=
  if s.generates q pt.aid then
    (upGenerate (s.upEnv cfg) (s.peers q).toOutParams.noLimit pt (s.locChain cfg q pt)
      (s.locEntry q pt).queued .sync { adjout := [] }).map fun out => adjoutEntries q out.adjout
  else .ok []

theorem upDecision_noLimit (env : UpEnv) (peer : OutParams) (p : Prefix) :
    upDecision env peer.noLimit p = upDecision env peer p := rfl

theorem selectRegular_noLimit (env : UpEnv) (peer : OutParams) (chain : List Prefix) :
    selectRegular env peer.noLimit chain = selectRegular env peer chain := by
  induction chain with
  | nil => rfl
  | cons p rest ih =>
    rw [selectRegular, selectRegular, ih, upDecision_noLimit]
    rfl

theorem selectAddpath_noLimit (env : UpEnv) (peer : OutParams) (chain : List Prefix)
    (st : AddpathScan) :
    selectAddpath env peer.noLimit chain st = selectAddpath env peer chain st := by
  induction chain generalizing st with
  | nil => rfl
  | cons p rest ih =>
    rw [selectAddpath, selectAddpath]
    simp only [ih, upDecision_noLimit]
    rfl

theorem selPeer_noLimit (env : UpEnv) (peer : OutParams) (aid : Aid) (chain : List Prefix) :
    selPeer env peer.noLimit aid chain = selPeer env peer aid chain := by
  unfold selPeer selAddpath
  rw [selectAddpath_noLimit]
  congr 2
  funext id
  unfold selRegular
  rw [selectRegular_noLimit]

/-- A generator that starts from nothing yields the selection. -/
theorem fromScratch_eq (hrib : RibWf cfg s) (hout : OutWf s) (hgen : s.generates q pt.aid = true)
    {f : ℕ → Option AdjoutAttr}
    (hsel : selPeer (s.upEnv cfg) (s.peers q).toOutParams pt.aid (s.locChain cfg q pt) = .ok f) :
    ∃ arr, AdjoutWf arr ∧ s.fromScratch cfg q pt = .ok (adjoutEntries q arr) ∧
      ∀ id, adjoutView q arr id = f id := by
  have hchain := hrib.chainOk (s.peers q).locRibId pt
  have hid : (s.peers q).toOutParams.noLimit.conf.id = q := hout.confId q
  have hspec := upGenerate_spec (s.upEnv cfg) (s.peers q).toOutParams.noLimit .sync hchain
    (hrib.queued_nodup (s.peers q).locRibId pt) (hrib.queued_path (s.peers q).locRibId pt)
    (fun _ => Or.inl rfl) (⟨AdjoutWf.nil, PendQueue.Wf.empty⟩ : Out.Wf { adjout := [] })
  rw [selPeer_noLimit] at hspec
  unfold RdeState.fromScratch
  rw [if_pos hgen]
  unfold RdeState.locChain RdeState.locEntry at hsel ⊢
  rw [hsel] at hspec
  have hfids : IdsOk (s.peers q).toOutParams.noLimit pt.aid f :=
    selPeer_ids hchain ((selPeer_noLimit ..).trans hsel)
  generalize upGenerate (s.upEnv cfg) (s.peers q).toOutParams.noLimit pt
    (prefixChain (cfg.ribFlags (s.peers q).locRibId) (s.entry (s.peers q).locRibId pt).prefixH)
    (s.entry (s.peers q).locRibId pt).queued .sync { adjout := [] } = r at hspec
  cases hspec with
  | error hne herr =>
    rcases herr with herr | ⟨_, hlen⟩
    · cases herr
    · simp [addpathPrefixListLen] at hlen
  | limit frame state max view => exact absurd rfl max
  | @done g out' hg gen state hids =>
    obtain rfl : f = g := Except.ok.inj hg
    rw [hid] at gen
    refine ⟨out'.adjout, gen.wf.adjout, rfl, fun id => ?_⟩
    by_cases hmem : id ∈ genIds (s.peers q).toOutParams.noLimit pt.aid .sync
        ((s.entry (s.peers q).locRibId pt).queued.map (·.1)) { adjout := [] }
    · exact gen.view id hmem
    · rw [gen.viewRest id hmem]
      rw [queued_ids] at hmem
      exact inLine_of_not_genIds (fun id hne => absurd rfl hne) hfids
        ((selPeer_noLimit ..).trans hsel) (Or.inl rfl) hmem

/-- A peer that is in line has the entries computed from scratch. -/
theorem fromScratch_of_synced (hrib : RibWf cfg s) (hout : OutWf s)
    (hgen : s.generates q pt.aid = true) (hsync : ∀ id, s.Synced cfg q pt id) :
    s.fromScratch cfg q pt = .ok (adjoutEntries q (s.adjout pt)) := by
  obtain ⟨f, hsel, _⟩ := hsync 0
  obtain ⟨arr, hwf, hrun, hview⟩ := fromScratch_eq hrib hout hgen hsel
  rw [hrun, hwf.entries_ext (hout.adjout pt) fun id => ?_]
  obtain ⟨g, hg, hid⟩ := hsync id
  obtain rfl : f = g := Except.ok.inj (hsel.symm.trans hg)
  rw [hview, hid]

/-! ## Runs -/

/-- Changes of the RIBs, with path ids as `pathid_assign` gives them. -/
def Event.changesRib (s : RdeState) : Event → Prop
  | .update a => s.pathidAssigned a
  | .withdraw .. => True
  | .flush .. => True
  | .nexthop .. => True
  | _ => False

instance (s : RdeState) (e : Event) : Decidable (e.changesRib s) :=
  match e with
  | .update a => inferInstanceAs (Decidable (s.pathidAssigned a))
  | .withdraw .. | .flush .. | .nexthop .. => isTrue trivial
  | .process _ | .dump .. | .up .. | .down _ | .stale .. | .sendWithdraws .. | .sendUpdate .. =>
    isFalse False.elim

/-- A step of the RDE, in one of its shapes. -/
theorem rdeStep_eq {e : Event} (h : rdeStep cfg s e = some s') : s.step cfg e = .ok s' := by
  unfold rdeStep at h
  cases hstep : s.step cfg e with
  | error f =>
    rw [hstep] at h
    cases h
  | ok s₁ =>
    rw [hstep] at h
    exact congrArg Except.ok (Option.some.inj h)

/-- Every change of the RIBs. -/
theorem RibWf.ribEvent (hrib : RibWf cfg s) {e : Event} (he : e.changesRib s)
    (hstep : s.step cfg e = .ok s') : RibChange cfg s s' := by
  cases e with
  | update a => exact hrib.prefixUpdate he hstep
  | withdraw rib peer pathId pt =>
    obtain rfl := Except.ok.inj hstep
    exact hrib.prefixWithdraw rib peer pathId pt
  | flush peer aid staletime =>
    obtain rfl := Except.ok.inj hstep
    exact hrib.peerFlush peer aid staletime
  | nexthop rib pt p state oldstate =>
    obtain rfl := Except.ok.inj hstep
    exact hrib.evaluateNexthop rib pt p state oldstate
  | _ => cases he

theorem RibChange.outWf (h : RibChange cfg s s') (hout : OutWf s) : OutWf s' where
  confId q := by
    rw [h.outParams q]
    exact hout.confId q
  adjout := by
    rw [h.adjout]
    exact hout.adjout
  pend q aid := by
    rw [h.pend q]
    exact hout.pend q aid

/-- Changes of the RIBs and processing of the queues. -/
def incremental (s : RdeState) (e : Event) : Prop :=
  match e with
  | .process _ => True
  | e => e.changesRib s

instance (s : RdeState) (e : Event) : Decidable (incremental s e) :=
  match e with
  | .process _ => isTrue trivial
  | .update a => inferInstanceAs (Decidable (s.pathidAssigned a))
  | .withdraw .. | .flush .. | .nexthop .. => isTrue trivial
  | .dump .. | .up .. | .down _ | .stale .. | .sendWithdraws .. | .sendUpdate .. =>
    isFalse False.elim

theorem incremental_cases {e : Event} (h : incremental s e) :
    e.changesRib s ∨ ∃ q, e = .process q := by
  cases e with
  | process q => exact Or.inr ⟨q, rfl⟩
  | _ => exact Or.inl h

/-- The start: the RIBs and the Adj-RIB-Outs are empty. -/
structure RdeState.Empty (cfg : RdeConfig) (s : RdeState) : Prop where
  entry : ∀ rib pt, s.entry rib pt = {}
  keys : s.keys = []
  adjout : ∀ pt, s.adjout pt = []
  pend : ∀ q aid, (s.peers q).pend aid = {}
  confId : ∀ q, (s.peers q).conf.id = q

theorem RdeState.Empty.ribWf (h : s.Empty cfg) : RibWf cfg s where
  entry rib _ pt := by
    rw [h.entry]
    exact EntryOk.empty s.evalAll pt
  old rib _ pt := by simp [h.entry]
  raw rib _ pt := by simp [h.entry]
  sorted := by simp [h.keys]
  keys rib pt hne := by simp [h.entry] at hne

theorem RdeState.Empty.outWf (h : s.Empty cfg) : OutWf s where
  confId := h.confId
  adjout pt := by
    rw [h.adjout]
    exact AdjoutWf.nil
  pend q aid := by
    rw [h.pend]
    exact PendQueue.Wf.empty

/-- The invariant of runs without session events. -/
structure Maintained (cfg : RdeConfig) (s : RdeState) : Prop where
  rib : RibWf cfg s
  out : OutWf s
  queue : QueueOk s
  all : ∀ q ∈ cfg.peertable, ∀ aid, s.evalAllOk q aid
  max : ∀ q, (s.peers q).conf.maxOutPrefix = 0
  ids : ∀ q ∈ cfg.peertable, ∀ pt,
    IdsOk (s.peers q).toOutParams pt.aid (adjoutView q (s.adjout pt))
  current : ∀ q ∈ cfg.peertable, ∀ pt, s.generates q pt.aid = true → s.Current cfg q pt
  others : ∀ q ∈ cfg.peertable, ∀ pt, s.generates q pt.aid = false →
    adjoutEntries q (s.adjout pt) = []

theorem selPeer_nil (env : UpEnv) (peer : OutParams) (aid : Aid) :
    selPeer env peer aid [] = .ok fun _ => none := by
  unfold selPeer
  split_ifs
  · rfl
  · congr 1
    funext id
    unfold selRegular
    split_ifs <;> rfl

theorem RdeState.Empty.locChain (h : s.Empty cfg) (q : PeerId) (pt : PtEntry) :
    s.locChain cfg q pt = [] := by
  unfold RdeState.locChain RdeState.locEntry
  rw [h.entry]
  unfold prefixChain
  split_ifs <;> rfl

theorem RdeState.Empty.maintained (h : s.Empty cfg)
    (hall : ∀ q ∈ cfg.peertable, ∀ aid, s.evalAllOk q aid)
    (hmax : ∀ q, (s.peers q).conf.maxOutPrefix = 0) : Maintained cfg s where
  rib := h.ribWf
  out := h.outWf
  queue rib pt hm := by simp [h.entry] at hm
  all := hall
  max := hmax
  ids q _ pt id hid := by simp [h.adjout, adjoutView] at hid
  current q _ pt _ id := by
    right
    refine ⟨fun _ => none, ?_, ?_⟩
    · rw [h.locChain]
      exact selPeer_nil ..
    · rw [h.adjout]
      rfl
  others q _ pt _ := by
    rw [h.adjout]
    rfl

/-- Every step keeps the invariant. -/
theorem Maintained.step (h : Maintained cfg s) {e : Event} (he : incremental s e)
    (hstep : rdeStep cfg s e = some s') : Maintained cfg s' := by
  have hstep := rdeStep_eq hstep
  rcases incremental_cases he with he | ⟨p, rfl⟩
  · have hc := h.rib.ribEvent he hstep
    refine ⟨hc.wf, hc.outWf h.out, hc.queued h.queue, fun q hq aid => hc.evalAllOk (h.all q hq aid),
      fun q => ?_, fun q hq pt => ?_, fun q hq pt hgen id => ?_, fun q hq pt hgen => ?_⟩
    · rw [hc.outParams q]
      exact h.max q
    · rw [hc.outParams q, hc.adjout]
      exact h.ids q hq pt
    · rw [hc.generates] at hgen
      exact hc.current h.rib (h.all q hq pt.aid) (h.current q hq pt hgen id)
    · rw [hc.generates] at hgen
      rw [hc.adjout]
      exact h.others q hq pt hgen
  · have hframe := peerProcessUpdates_frame h.rib h.out hstep
    have hfor := peerProcessUpdates_for h.rib h.out hstep
    have hcur := fun q hq (pt : PtEntry) (hgen : s.generates q pt.aid = true) =>
      (hfor q).follows hframe hq hgen (h.ids q hq pt)
    refine ⟨hframe.rib, hframe.out, hframe.queued h.queue, fun q hq aid => ?_, fun q => ?_,
      fun q hq pt => ?_, fun q hq pt hgen => ?_, fun q hq pt hgen => ?_⟩
    · unfold RdeState.evalAllOk
      rw [hframe.outParams q, hframe.evalAll]
      exact h.all q hq aid
    · rw [hframe.outParams q]
      exact h.max q
    · cases hgen : s.generates q pt.aid with
      | true => exact (hcur q hq pt hgen).1
      | false =>
        have hids := h.ids q hq pt
        unfold adjoutView at hids ⊢
        rw [hframe.outParams q, (hfor q).entries hgen]
        exact hids
    · rw [hframe.generates] at hgen
      rcases (hcur q hq pt hgen).2 with ⟨_, hmax⟩ | hcur
      · exact absurd (h.max q) hmax
      · exact fun id => (hcur id).resolve_right fun hc => hc.1 (h.current q hq pt hgen id)
    · rw [hframe.generates] at hgen
      rw [(hfor q).entries hgen]
      exact h.others q hq pt hgen

/-- Whenever no RIB entry is queued, every peer has exactly the entries that its generator
    computes from scratch. -/
theorem adjout_eq_fromScratch {s₀ : RdeState} (h₀ : s₀.Empty cfg)
    (hall : ∀ q ∈ cfg.peertable, ∀ aid, s₀.evalAllOk q aid)
    (hmax : ∀ q, (s₀.peers q).conf.maxOutPrefix = 0) {es : List Event}
    (hrun : Run (rdeStep cfg) incremental s₀ es s) (hidle : ∀ q, (s.peers q).ribPq = [])
    (hq : q ∈ cfg.peertable) (pt : PtEntry) :
    s.fromScratch cfg q pt = .ok (adjoutEntries q (s.adjout pt)) := by
  have hinv : Maintained cfg s :=
    hrun.invariant (fun _ _ _ h he hstep => h.step he hstep) (h₀.maintained hall hmax)
  cases hgen : s.generates q pt.aid with
  | false =>
    unfold RdeState.fromScratch
    rw [hgen, hinv.others q hq pt hgen]
    rfl
  | true =>
    refine fromScratch_of_synced hinv.rib hinv.out hgen fun id => ?_
    refine (hinv.current q hq pt hgen id).resolve_left (hinv.rib.not_pending ?_)
    by_contra hm
    obtain ⟨p, hp⟩ := hinv.queue _ pt hm
    rw [hidle p] at hp
    cases hp

/-! ## A small network -/

/-- Two peers, and filters that let everything through. -/
def sampleConfig : RdeConfig where
  peertable := [2, 3]
  filterOut := fun _ _ _ _ state => some state
  nexthop := fun _ => {}

/-- A peer with a session for IPv4. -/
def samplePeer (q : PeerId) : RdePeer where
  conf := { id := q, remoteAs := 65000 + q, localAs := 65000 }
  capa := { mp := fun aid => aid = .inet }
  state := .up

def sampleState : RdeState where
  peers := samplePeer

def samplePt : PtEntry := ⟨.inet, 0xc0000200, 24⟩

/-- A path of the first peer. -/
def sampleUpdate : PathArgs where
  rib := 1
  peer := 2
  pathIdTx := 1
  pt := samplePt

/-- The path is added and the queue is processed. -/
def sampleEnd : RdeState :=
  (execRun (rdeStep sampleConfig) incremental sampleState
    [.update sampleUpdate, .process 2]).getD sampleState

theorem adjout_eq_fromScratch_sample :
    Run (rdeStep sampleConfig) incremental sampleState [.update sampleUpdate, .process 2]
        sampleEnd ∧
      sampleEnd.fromScratch sampleConfig 3 samplePt =
        .ok (adjoutEntries 3 (sampleEnd.adjout samplePt)) ∧
      (adjoutEntries 3 (sampleEnd.adjout samplePt)).length = 1 := by
  have hrun : Run (rdeStep sampleConfig) incremental sampleState
      [.update sampleUpdate, .process 2] sampleEnd := run_of_execRun rfl
  have hempty : sampleState.Empty sampleConfig :=
    ⟨fun _ _ => rfl, rfl, fun _ => rfl, fun _ _ => rfl, fun _ => rfl⟩
  have hidle : ∀ q, (sampleEnd.peers q).ribPq = [] := by
    intro q
    match q with
    | 0 | 1 | 2 | 3 => rfl
    | q + 4 => rfl
  refine ⟨hrun, adjout_eq_fromScratch hempty ?_ (fun _ => rfl) hrun hidle ?_ samplePt, rfl⟩
  · intro q _ aid hneeds
    cases hneeds
  · exact List.mem_cons_of_mem _ (List.mem_singleton.mpr rfl)

end Bgpd.Rde
