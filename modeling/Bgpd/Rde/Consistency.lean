import Bgpd.Rde.Session

/-!
# The Consistency Check of the Adj-RIB-Out

`adjout_prefix_update` and `adjout_prefix_withdraw` abort when the entry they are called with is
not one of the peer or has another path id. Entries survive the end of a session, so a peer that
negotiated add-path in an earlier session and does not now may still have entries with path ids.
A dump flushes them, but an incremental update that comes first hits the check.

## Main results

- `peerGenerateUpdate_kingBula`: when a call of the generator aborts
- `step_ne_kingBula`: the check never fails as long as no such update is processed
- `kingBula_reachable`: it fails after add-path was given up
-/

namespace Bgpd.Rde

open Bgpd.Lib

variable {cfg : RdeConfig} {s s₁ s' : RdeState} {rib : ℕ} {pt k : PtEntry} {q p : PeerId}
  {aid : Aid} {mode : EvalMode} {ctx : RibContext}

/-! ## Generation -/

theorem ok_ne_error {α : Type*} {a : α} {e : Fatal} : (Except.ok a : Except Fatal α) ≠ .error e :=
  nofun

/-- An update is generated for a peer without add-path whose first entry has a path id, outside
    of a dump. -/
structure RdeState.StrayUpdate (cfg : RdeConfig) (s : RdeState) (rib : ℕ) (pt : PtEntry)
    (mode : EvalMode) (q : PeerId) : Prop where
  generator : (s.peers q).hasGenerator rib pt.aid = true
  addPath : (s.peers q).capa.addPathSend pt.aid = false
  sync : mode ≠ .sync
  runs : mode = .all → (s.peers q).flags.evaluateAll = true
  stray : ∃ e ∈ (adjoutEntries q (s.adjout pt)).head?, e.1 ≠ 0
  selected : selectRegular (s.upEnv cfg) (s.peers q).toOutParams
    (prefixChain (cfg.ribFlags rib) (s.entry rib pt).prefixH) ≠ none

instance (s : RdeState) (rib : ℕ) (pt : PtEntry) (mode : EvalMode) (q : PeerId) :
    Decidable (s.StrayUpdate cfg rib pt mode q) :=
  decidable_of_iff
    (((s.peers q).hasGenerator rib pt.aid = true ∧ (s.peers q).capa.addPathSend pt.aid = false) ∧
      (mode ≠ .sync ∧ (mode = .all → (s.peers q).flags.evaluateAll = true)) ∧
      (∃ e ∈ (adjoutEntries q (s.adjout pt)).head?, e.1 ≠ 0) ∧
      selectRegular (s.upEnv cfg) (s.peers q).toOutParams
        (prefixChain (cfg.ribFlags rib) (s.entry rib pt).prefixH) ≠ none)
    ⟨fun ⟨⟨h1, h2⟩, ⟨h3, h4⟩, h5, h6⟩ => ⟨h1, h2, h3, h4, h5, h6⟩,
      fun ⟨h1, h2, h3, h4, h5, h6⟩ => ⟨⟨h1, h2⟩, ⟨h3, h4⟩, h5, h6⟩⟩

/-- The check fails exactly for these updates. -/
theorem peerGenerateUpdate_kingBula (hrib : RibWf cfg s) (hout : OutWf s) :
    s.peerGenerateUpdate cfg rib pt mode q = .error .kingBula ↔
      s.StrayUpdate cfg rib pt mode q := by
  cases hgen : (s.peers q).hasGenerator rib pt.aid with
  -- no generator is called for this neighbour
  | false =>
    refine ⟨fun hrun => ?_, fun hs => ?_⟩
    · unfold RdeState.peerGenerateUpdate at hrun
      dsimp only at hrun
      rw [hgen, if_neg (by simp)] at hrun
      cases hrun
    · rw [hs.generator] at hgen
      cases hgen
  | true =>
    -- the call can only end in `kingBula` from the branch without add-path
    by_cases hstray : (s.peers q).capa.addPathSend pt.aid = false → mode = .sync ∨
        ∀ e ∈ (adjoutEntries q (s.adjout pt)).head?, e.1 = 0
    · obtain ⟨r, hr, hspec⟩ := peerGenerateUpdate_outcome hrib hout mode hgen hstray
      refine ⟨fun hrun => ?_, fun hs => ?_⟩
      · rw [hr] at hrun
        cases hspec with
        | error hne _ => exact absurd (Except.error.inj hrun) hne
        | limit => cases hrun
        | done => cases hrun
      · obtain ⟨e, he, hne⟩ := hs.stray
        exact absurd ((hstray hs.addPath).resolve_left hs.sync e he) hne
    · push Not at hstray
      obtain ⟨hadd, hmode, e, he, hne⟩ := hstray
      -- the call is the plain one, guarded by the flag `evaluateAll`
      have hcall : s.peerGenerateUpdate cfg rib pt mode q =
          (if mode = .all ∧ !(s.peers q).flags.evaluateAll then .ok (s.out q pt)
          else upGenerateUpdates (s.upEnv cfg) (s.peers q).toOutParams pt
            (prefixChain (cfg.ribFlags rib) (s.entry rib pt).prefixH) mode (s.out q pt)).map
              (s.setOut q pt) := by
        unfold RdeState.peerGenerateUpdate upGenerate
        dsimp only
        rw [if_pos hgen, if_neg (by simp [hadd])]
      rw [hcall]
      by_cases hskip : mode = .all ∧ (!(s.peers q).flags.evaluateAll) = true
      -- the guard keeps the generator from running
      · rw [if_pos hskip]
        refine ⟨fun hrun => absurd hrun ok_ne_error, fun hs => ?_⟩
        have := hs.runs hskip.1
        rw [this] at hskip
        cases hskip.2
      · rw [if_neg hskip]
        have hruns : mode = .all → (s.peers q).flags.evaluateAll = true := by
          intro hall
          by_contra hflag
          exact hskip ⟨hall, by simpa using hflag⟩
        have he' : e ∈ (adjoutEntries (s.peers q).conf.id (s.out q pt).adjout).head? := by
          rw [hout.confId]
          exact he
        rcases upGenerateUpdates_stray (s.upEnv cfg) (s.peers q).toOutParams pt (hout.out q pt)
            (hrib.chainOk rib pt).eligible hmode he' hne with ⟨hsel, hres⟩ | ⟨hsel, out', hres, _⟩
        · rw [hres]
          exact ⟨fun _ => ⟨hgen, hadd, hmode, hruns, ⟨e, he, hne⟩, hsel⟩, fun _ => rfl⟩
        · rw [hres]
          exact ⟨fun hrun => absurd hrun ok_ne_error, fun hs => absurd hsel hs.selected⟩

/-- The loop over the peers ends with the error of one of them. -/
theorem generateAll_error (hrib : RibWf cfg s) (hout : OutWf s) {l : List PeerId} (hnd : l.Nodup)
    {e : Fatal} (hrun : s.generateAll cfg rib pt mode l = .error e) :
    ∃ s₁ q, q ∈ l ∧ GenFrame pt s s₁ ∧ Unaffected q s s₁ ∧
      s₁.peerGenerateUpdate cfg rib pt mode q = .error e := by
  induction l generalizing s with
  | nil => cases hrun
  | cons p l ih =>
    obtain ⟨hnot, hnd⟩ := List.nodup_cons.mp hnd
    rw [RdeState.generateAll] at hrun
    cases hp : s.peerGenerateUpdate cfg rib pt mode p with
    | error e' =>
      simp only [hp, bind, Except.bind] at hrun
      refine ⟨s, p, List.mem_cons_self .., GenFrame.refl pt hout, Unaffected.refl p s, ?_⟩
      rw [hp]
      exact hrun
    | ok sₚ =>
      simp only [hp, bind, Except.bind] at hrun
      obtain ⟨hframe, hother⟩ := peerGenerateUpdate_frame hrib hout hp
      obtain ⟨s₁, q, hq, hf, hu, herr⟩ := ih (hframe.ribWf hrib) hframe.wf hnd hrun
      refine ⟨s₁, q, List.mem_cons_of_mem p hq, hframe.trans hf, (hother q ?_).trans hu, herr⟩
      rintro rfl
      exact hnot hq

theorem RdeState.StrayUpdate.of_unaffected (h : s₁.StrayUpdate cfg rib pt mode q)
    (hf : GenFrame pt s s₁) (hu : Unaffected q s s₁) : s.StrayUpdate cfg rib pt mode q := by
  obtain ⟨h1, h2, h3, h4, h5, h6⟩ := h
  rw [hu.peer] at h1 h2 h4 h6
  rw [hu.entries] at h5
  rw [hf.upEnv, hf.entry] at h6
  exact ⟨h1, h2, h3, h4, h5, h6⟩

/-! ## Events -/

/-- No update for an entry with a stray path id is about to be processed. -/
def RdeState.noStray (cfg : RdeConfig) (s : RdeState) (p : PeerId) : Prop :=
  ∀ e ∈ (s.peers p).ribPq.head?, ∀ mode ∈ (s.entry e.1 e.2).pqMode, ∀ q ∈ cfg.peertable,
    ¬s.StrayUpdate cfg e.1 e.2 mode q

instance (s : RdeState) (p : PeerId) : Decidable (s.noStray cfg p) :=
  inferInstanceAs (Decidable (∀ e ∈ (s.peers p).ribPq.head?, _))

/-- Without a stray update the call of one peer does not abort. -/
theorem peerProcessUpdates_ne_kingBula (h : SysWf cfg s) (hs : s.noStray cfg p) :
    s.peerProcessUpdates cfg p ≠ .error .kingBula := by
  intro hrun
  unfold RdeState.peerProcessUpdates at hrun
  cases hpq : (s.peers p).ribPq with
  | nil =>
    rw [hpq] at hrun
    cases hrun
  | cons e rest =>
    obtain ⟨rib, k⟩ := e
    have hpop : s.setPeer p { s.peers p with ribPq := rest } = s.popQueue p rest := rfl
    rw [hpq] at hrun
    dsimp only at hrun
    rw [hpop] at hrun
    obtain ⟨hrib₀, hout₀, henv₀⟩ := popQueue_frame h.rib h.out p rest
    cases hm : ((s.popQueue p rest).entry rib k).pqMode with
    -- an entry that is queued for no mode is dropped
    | none =>
      rw [hm] at hrun
      cases hrun
    | some mode =>
      rw [hm] at hrun
      dsimp only at hrun
      cases hall : (s.popQueue p rest).generateAll cfg rib k mode cfg.peertable with
      | ok s₁ =>
        rw [hall] at hrun
        cases hrun
      | error e =>
        rw [hall] at hrun
        obtain rfl : e = .kingBula := Except.error.inj hrun
        -- the first neighbour whose call fails is a stray one, and was so before the round
        obtain ⟨s₁, q, hq, hf, hu, herr⟩ := generateAll_error hrib₀ hout₀ cfg.nodup hall
        have hstray := ((peerGenerateUpdate_kingBula (hf.ribWf hrib₀) hf.wf).mp herr).of_unaffected
          hf hu
        refine hs (rib, k) (by rw [hpq]; rfl) mode hm q hq ?_
        have hbase := popQueue_base s p rest q
        have hparams : ((s.popQueue p rest).peers q).toOutParams = (s.peers q).toOutParams :=
          (congrArg RdePeer.toOutParams hbase : _)
        have hgenr : ((s.popQueue p rest).peers q).hasGenerator rib k.aid =
            (s.peers q).hasGenerator rib k.aid :=
          (congrArg (fun x : RdePeer => x.hasGenerator rib k.aid) hbase : _)
        obtain ⟨h1, h2, h3, h4, h5, h6⟩ := hstray
        rw [hparams] at h2 h4 h6
        rw [henv₀] at h6
        exact ⟨hgenr ▸ h1, h2, h3, h4, h5, h6⟩

/-- A dump flushes entries with stray path ids. -/
theorem dumpUpcall_ne_kingBula (h : SysWf cfg s) :
    s.dumpUpcall cfg q rib pt ≠ .error .kingBula := by
  unfold RdeState.dumpUpcall
  cases prefixBest (cfg.ribFlags rib) (s.entry rib pt).prefixH with
  | none => exact ok_ne_error
  | some b =>
    cases hgen : s.peerGenerateUpdate cfg rib pt .sync q with
    | ok s₁ => exact ok_ne_error
    | error e =>
      rintro ⟨⟩
      exact ((peerGenerateUpdate_kingBula h.rib h.out).mp hgen).sync rfl

theorem flowspecDump_ne_kingBula (h : SysWf cfg s) {l : List PtEntry} :
    s.flowspecDump cfg q l ≠ .error .kingBula := by
  induction l generalizing s with
  | nil => exact ok_ne_error
  | cons k l ih =>
    rw [RdeState.flowspecDump]
    cases hk : s.dumpUpcall cfg q ribLocStart k with
    | error e =>
      rintro ⟨⟩
      exact dumpUpcall_ne_kingBula h hk
    | ok s₁ => exact ih (h.dumpUpcall hk)

/-- A round of a dump does not abort. -/
theorem ribDumpR_ne_kingBula (h : SysWf cfg s) {i n : ℕ} :
    s.ribDumpR cfg i n ≠ .error .kingBula := by
  unfold RdeState.ribDumpR
  cases hctx : s.dumps[i]? with
  | none => exact ok_ne_error
  | some ctx =>
    dsimp only
    rcases dumpWalk_cases cfg ctx n (s.dumpRest ctx.pos) s with
      ⟨l₁, l₂, s₁, _, _, hres, _⟩ | ⟨l₁, k, l₂, s₁, e, _, hwalk, _, hcall, hres⟩
    · rw [hres]
      cases l₂ <;> exact ok_ne_error
    · rw [hres]
      rintro ⟨⟩
      unfold RdeState.dumpCall at hcall
      cases hk : ctx.kind with
      | dump =>
        rw [hk] at hcall
        exact dumpUpcall_ne_kingBula (h.walk hwalk) hcall
      | blast =>
        rw [hk] at hcall
        cases hcall

theorem dumpDefault_ne_kingBula (h : SysWf cfg s)
    (hexp : (s.peers q).exportType = .defaultRoute) :
    s.dumpDefault cfg q aid ≠ .error .kingBula := by
  have hids : ∀ e ∈ adjoutEntries (s.peers q).conf.id (s.out q (defaultPt aid)).adjout,
    e.1 = 0 := by
    rw [h.out.confId]
    exact h.default q hexp (defaultPt aid)
  unfold RdeState.dumpDefault
  rcases upGenerateDefault_spec (s.upEnv cfg) (s.peers q).toOutParams aid
      (h.out.out q (defaultPt aid)) hids with ⟨_, hres⟩ | ⟨a, out₁, _, _, _, hres | ⟨hres, _⟩⟩
  all_goals rw [hres]; exact ok_ne_error

theorem except_map_error {α β : Type*} {x : Except Fatal α} {f : α → β} {e : Fatal}
    (h : x.map f = .error e) : x = .error e := by
  cases x with
  | error e' => exact congrArg Except.error (Except.error.inj h)
  | ok a => cases h

theorem peerDump_ne_kingBula (h : SysWf cfg s) : s.peerDump cfg q aid ≠ .error .kingBula := by
  have ht := h.throttle q
  intro hrun
  unfold RdeState.peerDump at hrun
  dsimp only at hrun
  cases hexp : ((s.throttle q).peers q).exportType with
  | none =>
    rw [hexp] at hrun
    cases hrun
  | defaultRoute =>
    rw [hexp] at hrun
    exact dumpDefault_ne_kingBula ht hexp (except_map_error hrun)
  | unset =>
    rw [hexp] at hrun
    dsimp only at hrun
    split_ifs at hrun
    exact flowspecDump_ne_kingBula ht (except_map_error hrun)

theorem startDumps_ne_kingBula (h : SysWf cfg s) (hs : (s.peers q).state ≠ .none)
    {forceSync : Bool} {aids : List Aid} :
    s.startDumps cfg q forceSync aids ≠ .error .kingBula := by
  induction aids generalizing s with
  | nil => exact ok_ne_error
  | cons aid aids ih =>
    rw [RdeState.startDumps]
    split_ifs
    · exact ih h hs
    · cases hd : s.peerDump cfg q aid with
      | error e =>
        rintro ⟨⟩
        exact peerDump_ne_kingBula h hd
      | ok s₁ =>
        obtain ⟨h₁, hs₁⟩ := h.peerDump hs hd
        exact ih h₁ hs₁
    · have hb : SysWf cfg (s.peerBlast q aid) := h.setDumps _
      exact ih hb hs

theorem peerUp_ne_kingBula (h : SysWf cfg s) {sup : SessionUp} :
    s.peerUp cfg q sup ≠ .error .kingBula := by
  have h₀ := (h.resetErr q).withSession q sup
  intro hrun
  change (((s.resetErr cfg q).setPeer q (((s.resetErr cfg q).peers q).withSession sup)).startDumps
    cfg q (!((s.resetErr cfg q).peers q).inSync sup) Aid.all).bind (fun s₁ =>
      .ok { s₁ with evalAll := s₁.evalAll || Aid.all.any sup.capa.addPathSend }) =
        .error .kingBula at hrun
  cases hd :
    ((s.resetErr cfg q).setPeer q (((s.resetErr cfg q).peers q).withSession sup)).startDumps
      cfg q (!((s.resetErr cfg q).peers q).inSync sup) Aid.all with
  | ok s₁ =>
    rw [hd] at hrun
    cases hrun
  | error e =>
    rw [hd] at hrun
    obtain rfl : e = .kingBula := Except.error.inj hrun
    refine startDumps_ne_kingBula h₀ ?_ hd
    rw [setPeer_peers, if_pos rfl]
    exact PeerState.noConfusion

theorem prefixUpdate_ne_kingBula (a : PathArgs) : s.prefixUpdate cfg a ≠ .error .kingBula := by
  unfold RdeState.prefixUpdate
  cases s.prefixGet a.rib a.peer a.pathId a.pt with
  | none => exact ok_ne_error
  | some p =>
    dsimp only
    split_ifs
    · rintro ⟨⟩
    all_goals exact ok_ne_error

/-- Updates have path ids as `pathid_assign` gives them, and no update for an entry with a stray
    path id is processed. -/
def withoutStray (cfg : RdeConfig) (s : RdeState) (e : Event) : Prop :=
  match e with
  | .process p => s.noStray cfg p
  | e => e.valid s

instance (s : RdeState) (e : Event) : Decidable (withoutStray cfg s e) :=
  match e with
  | .process p => inferInstanceAs (Decidable (s.noStray cfg p))
  | .update a => inferInstanceAs (Decidable (s.pathidAssigned a))
  | .withdraw .. | .flush .. | .nexthop .. | .dump .. | .up .. | .down _ | .stale ..
  | .sendWithdraws .. | .sendUpdate .. => isTrue trivial

theorem withoutStray_valid {e : Event} (h : withoutStray cfg s e) : e.valid s := by
  cases e with
  | process p => trivial
  | _ => exact h

/-- The check does not fail in a run that does not process such an update. -/
theorem step_ne_kingBula {s₀ : RdeState} (h₀ : s₀.Empty cfg) {es : List Event}
    (hrun : Run (rdeStep cfg) (withoutStray cfg) s₀ es s) {e : Event} (he : withoutStray cfg s e) :
    s.step cfg e ≠ .error .kingBula := by
  have h : SysWf cfg s :=
    hrun.invariant
      (fun _ _ _ h he hstep => h.step (withoutStray_valid he) (rdeStep_eq hstep)) h₀.sysWf
  cases e with
  | update a => exact prefixUpdate_ne_kingBula a
  | process p => exact peerProcessUpdates_ne_kingBula h he
  | dump i n => exact ribDumpR_ne_kingBula h
  | up q sup => exact peerUp_ne_kingBula h
  | _ => exact ok_ne_error

theorem step_ne_kingBula_sample :
    ∃ s, Run (rdeStep sampleConfig) (withoutStray sampleConfig) sampleState
        [.update sampleUpdate] s ∧
      withoutStray sampleConfig s (.process 2) ∧
      s.step sampleConfig (.process 2) ≠ .error .kingBula := by
  have hempty : sampleState.Empty sampleConfig :=
    ⟨fun _ _ => rfl, rfl, fun _ => rfl, fun _ _ => rfl, fun _ => rfl⟩
  obtain ⟨s, hrun, he⟩ := exists_run (rdeStep sampleConfig) (withoutStray sampleConfig) sampleState
    [.update sampleUpdate] (fun s => withoutStray sampleConfig s (.process 2)) (by decide)
  exact ⟨s, hrun, he, step_ne_kingBula hempty hrun he⟩

/-! ## A peer gives up add-path -/

/-- A peer without a session, for which `add-path send all` is configured. -/
def addpathPeer (q : PeerId) : RdePeer where
  conf := { id := q, remoteAs := 65000 + q, localAs := 65000 }
  eval := { mode := .all }

def addpathState : RdeState where
  peers := addpathPeer

/-- A session for IPv4, with or without add-path. -/
def ipv4Session (q : PeerId) (addPath : Bool) : SessionUp where
  remoteAddr := { aid := some .inet, addr := 0xc0000200 + q }
  remoteBgpid := q
  capa := { mp := fun aid => aid = .inet, addPathSend := fun aid => addPath ∧ aid = .inet }

/-- A path is advertised with add-path. The session comes back without it, and the path changes
    before the dump has started. -/
def addpathLost : List Event :=
  [.up 2 (ipv4Session 2 false), .up 3 (ipv4Session 3 true), .update sampleUpdate, .process 2,
    .down 3, .up 3 (ipv4Session 3 false),
    .update { sampleUpdate with state := { aspath := { lpref := 200 } } }]

def addpathLostEnd : RdeState :=
  (execRun (rdeStep sampleConfig) (fun s e => e.valid s) addpathState addpathLost).getD addpathState

theorem kingBula_reachable :
    addpathState.Empty sampleConfig ∧
      Run (rdeStep sampleConfig) (fun s e => e.valid s) addpathState addpathLost addpathLostEnd ∧
      addpathLostEnd.step sampleConfig (.process 2) = .error .kingBula := by
  refine ⟨⟨fun _ _ => rfl, rfl, fun _ => rfl, fun _ _ => rfl, fun _ => rfl⟩, ?_, rfl⟩
  exact run_of_execRun rfl

end Bgpd.Rde
