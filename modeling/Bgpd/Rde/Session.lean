import Bgpd.Rde.Scratch

/-!
# What Sessions and Dumps Keep

The invariants of the RIBs, the queues and the Adj-RIB-Outs hold in every state that any order of
events leads to.

## Main results

- `Walk`: the elements a round of a dump visits
- `SysWf`: the invariant of the system
- `SysWf.step`: every event keeps it
-/

namespace Bgpd.Rde

open Bgpd.Lib

variable {cfg : RdeConfig} {s s₁ s' : RdeState} {rib : ℕ} {pt k : PtEntry} {q p : PeerId}
  {aid : Aid} {ctx : RibContext} {l : List PtEntry}

/-! ## The invariant -/

/-- The RIBs, the queues and the Adj-RIB-Outs are in order. Peers that are only told about a
    default route have no path ids. -/
structure SysWf (cfg : RdeConfig) (s : RdeState) : Prop where
  rib : RibWf cfg s
  out : OutWf s
  queue : QueueOk s
  default : ∀ q, (s.peers q).exportType = .defaultRoute →
    ∀ pt, ∀ e ∈ adjoutEntries q (s.adjout pt), e.1 = 0

theorem EntryOk.mono {evalAll evalAll' : Bool} {re : RibEntry} (h : EntryOk evalAll pt re)
    (hle : evalAll = true → evalAll' = true) : EntryOk evalAll' pt re :=
  ⟨h.list, h.ids, h.paths, fun hne => hle (h.all hne), h.mode, h.queued⟩

/-- The RIBs are the same. -/
theorem RibWf.congr (h : RibWf cfg s) (hentry : s'.entry = s.entry) (hkeys : s'.keys = s.keys)
    (hptr : s'.nextPtr = s.nextPtr) (heval : s.evalAll = true → s'.evalAll = true) :
    RibWf cfg s' where
  entry rib hev pt := by
    rw [hentry]
    exact (h.entry rib hev pt).mono heval
  old := by
    rw [hentry, hptr]
    exact h.old
  raw := by
    rw [hentry]
    exact h.raw
  sorted := by
    rw [hkeys]
    exact h.sorted
  keys := by
    rw [hentry, hkeys]
    exact h.keys

theorem QueueOk.congr (h : QueueOk s) (hentry : s'.entry = s.entry)
    (hpq : ∀ q, (s'.peers q).ribPq = (s.peers q).ribPq) : QueueOk s' := by
  intro rib pt hm
  rw [hentry] at hm
  obtain ⟨q, hq⟩ := h rib pt hm
  exact ⟨q, by rwa [hpq]⟩

theorem setPeer_peers (q : PeerId) (peer : RdePeer) (p : PeerId) :
    (s.setPeer q peer).peers p = if p = q then peer else s.peers p := rfl

/-- Changes of a peer that do not concern its queue and its configuration. -/
theorem SysWf.setPeer (h : SysWf cfg s) {peer : RdePeer} (hid : peer.conf.id = q)
    (hpq : peer.ribPq = (s.peers q).ribPq) (hpend : ∀ aid, (peer.pend aid).Wf)
    (hexp : peer.exportType = (s.peers q).exportType) : SysWf cfg (s.setPeer q peer) where
  rib := h.rib.congr rfl rfl rfl id
  out := by
    refine ⟨fun p => ?_, h.out.adjout, fun p aid => ?_⟩
    · rw [setPeer_peers]
      split_ifs with hp
      · rw [hp, hid]
      · exact h.out.confId p
    · rw [setPeer_peers]
      split_ifs
      · exact hpend aid
      · exact h.out.pend p aid
  queue := by
    refine h.queue.congr rfl fun p => ?_
    rw [setPeer_peers]
    split_ifs with hp
    · rw [hp, hpq]
    · rfl
  default p hexp' := by
    refine h.default p ?_
    rw [setPeer_peers] at hexp'
    split_ifs at hexp' with hp
    · rw [hp, ← hexp]
      exact hexp'
    · exact hexp'

theorem SysWf.setDumps (h : SysWf cfg s) (dumps : List RibContext) :
    SysWf cfg { s with dumps := dumps } :=
  ⟨h.rib.congr rfl rfl rfl id, ⟨h.out.confId, h.out.adjout, h.out.pend⟩,
    h.queue.congr rfl fun _ => rfl,
    h.default⟩

theorem RibChange.sysWf (h : RibChange cfg s s') (hs : SysWf cfg s) : SysWf cfg s' where
  rib := h.wf
  out := h.outWf hs.out
  queue := h.queued hs.queue
  default q hexp pt := by
    rw [h.outParams q] at hexp
    rw [h.adjout]
    exact hs.default q hexp pt

theorem GenFrame.sysWf (h : GenFrame pt s s') (hs : SysWf cfg s)
    (hdef : ∀ q, (s.peers q).exportType = .defaultRoute →
      ∀ e ∈ adjoutEntries q (s'.adjout pt), e.1 = 0) : SysWf cfg s' where
  rib := h.ribWf hs.rib
  out := h.wf
  queue := hs.queue.congr h.entry h.ribPq
  default q hexp k := by
    rw [h.outParams q] at hexp
    by_cases hk : k = pt
    · rw [hk]
      exact hdef q hexp
    · rw [h.adjout k hk]
      exact hs.default q hexp k

/-- A peer with a special export type has no generator. -/
theorem hasGenerator_default {peer : RdePeer} (h : peer.exportType = .defaultRoute) :
    peer.hasGenerator rib aid = false := by
  unfold RdePeer.hasGenerator
  simp [h]

/-! ## Generation -/

theorem SysWf.peerGenerateUpdate (h : SysWf cfg s) {mode : EvalMode}
    (hrun : s.peerGenerateUpdate cfg rib pt mode q = .ok s') : SysWf cfg s' := by
  obtain ⟨hframe, hother⟩ := peerGenerateUpdate_frame h.rib h.out hrun
  refine hframe.sysWf h fun p hexp => ?_
  by_cases hp : p = q
  · subst hp
    unfold RdeState.peerGenerateUpdate at hrun
    dsimp only at hrun
    rw [hasGenerator_default hexp, if_neg (by simp)] at hrun
    obtain rfl := Except.ok.inj hrun
    exact h.default p hexp pt
  · rw [(hother p hp).entries]
    exact h.default p hexp pt

theorem SysWf.collect (h : SysWf cfg s) (pt : PtEntry) : SysWf cfg (s.collect pt) := by
  obtain ⟨hframe, hother⟩ := collect_frame h.out pt
  refine hframe.sysWf h fun q hexp => ?_
  rw [(hother q).entries]
  exact h.default q hexp pt

theorem SysWf.peerProcessUpdates (h : SysWf cfg s) (hrun : s.peerProcessUpdates cfg p = .ok s') :
    SysWf cfg s' := by
  have hframe := peerProcessUpdates_frame h.rib h.out hrun
  have hfor := peerProcessUpdates_for h.rib h.out hrun
  refine ⟨hframe.rib, hframe.out, hframe.queued h.queue, fun q hexp pt => ?_⟩
  rw [hframe.outParams q] at hexp
  rw [(hfor q).entries (hasGenerator_default hexp)]
  exact h.default q hexp pt

/-! ## Dumps -/

theorem pendEorAdd_wf {pend : PendQueue} (h : pend.Wf) : (pendEorAdd pend).Wf where
  keys := by
    unfold pendEorAdd PendQueue.list
    rw [groupList_pendAttrGet]
    exact h.keys
  groups := groups_pendAttrGet h.groups
  eor := by
    unfold pendEorAdd
    rw [groupList_pendAttrGet]
    exact h.eor

theorem SysWf.dumpDone (h : SysWf cfg s) (q : PeerId) (aid : Aid) :
    SysWf cfg (s.dumpDone q aid) := by
  refine h.setPeer (h.out.confId q) rfl (fun a => ?_) rfl
  dsimp only
  split_ifs
  · exact pendEorAdd_wf (h.out.pend q a)
  · exact h.out.pend q a

/-- Everything the loop over the entries of a peer puts into the pending queue. -/
theorem blast_pend_wf {pend : PendQueue} (h : pend.Wf) (pt : PtEntry)
    (es : List (ℕ × AdjoutPrefix)) :
    (es.foldl (fun pend e => pendPrefixAdd e.2.attrs pt e.2.pathIdTx pend) pend).Wf := by
  induction es generalizing pend with
  | nil => exact h
  | cons e es ih => exact ih h.pendPrefixAdd

theorem SysWf.blastUpcall (h : SysWf cfg s) (q : PeerId) (pt : PtEntry) :
    SysWf cfg (s.blastUpcall q pt) := by
  unfold RdeState.blastUpcall
  refine SysWf.collect (h.setPeer ?_ ?_ (fun a => ?_) ?_) pt
  · exact h.out.confId q
  · rfl
  · dsimp only
    split_ifs
    · exact blast_pend_wf (h.out.pend q pt.aid) pt _
    · exact h.out.pend q a
  · rfl

theorem dumpUpcall_cases (hrun : s.dumpUpcall cfg q rib pt = .ok s') :
    prefixBest (cfg.ribFlags rib) (s.entry rib pt).prefixH = none ∧ s' = s ∨
      prefixBest (cfg.ribFlags rib) (s.entry rib pt).prefixH ≠ none ∧
        ∃ s₁, s.peerGenerateUpdate cfg rib pt .sync q = .ok s₁ ∧ s' = s₁.collect pt := by
  unfold RdeState.dumpUpcall at hrun
  cases hbest : prefixBest (cfg.ribFlags rib) (s.entry rib pt).prefixH with
  | none =>
    rw [hbest] at hrun
    exact Or.inl ⟨rfl, (Except.ok.inj hrun).symm⟩
  | some b =>
    rw [hbest] at hrun
    cases hgen : s.peerGenerateUpdate cfg rib pt .sync q with
    | error e =>
      simp only [hgen, bind, Except.bind] at hrun
      cases hrun
    | ok s₁ =>
      simp only [hgen, bind, Except.bind] at hrun
      exact Or.inr ⟨Option.some_ne_none b, s₁, rfl, (Except.ok.inj hrun).symm⟩

theorem SysWf.dumpUpcall (h : SysWf cfg s) (hrun : s.dumpUpcall cfg q rib pt = .ok s') :
    SysWf cfg s' := by
  rcases dumpUpcall_cases hrun with ⟨_, rfl⟩ | ⟨_, s₁, hgen, rfl⟩
  · exact h
  · exact (h.peerGenerateUpdate hgen).collect pt

theorem SysWf.dumpCall (h : SysWf cfg s) (hrun : s.dumpCall cfg ctx pt = .ok s') :
    SysWf cfg s' := by
  unfold RdeState.dumpCall at hrun
  cases hk : ctx.kind with
  | dump =>
    rw [hk] at hrun
    exact h.dumpUpcall hrun
  | blast =>
    rw [hk] at hrun
    obtain rfl := Except.ok.inj hrun
    exact h.blastUpcall ctx.peer pt

/-- The elements a round of a dump goes through. -/
inductive Walk (cfg : RdeConfig) (ctx : RibContext) :
    List PtEntry → RdeState → RdeState → Prop
  | nil (s : RdeState) : Walk cfg ctx [] s s
  | skip {s s' : RdeState} {k : PtEntry} {l : List PtEntry} (hskip : s.dumpSkips ctx k = true)
      (hrest : Walk cfg ctx l s s') : Walk cfg ctx (k :: l) s s'
  | visit {s s₁ s' : RdeState} {k : PtEntry} {l : List PtEntry} (hskip : s.dumpSkips ctx k = false)
      (hcall : s.dumpCall cfg ctx k = .ok s₁) (hrest : Walk cfg ctx l s₁ s') :
      Walk cfg ctx (k :: l) s s'

/-- The result of a round: a walk up to the element at which it pauses, or an error on the way. -/
theorem dumpWalk_cases (cfg : RdeConfig) (ctx : RibContext) (n : ℕ) (l : List PtEntry)
    (s : RdeState) :
    (∃ l₁ l₂ s', l = l₁ ++ l₂ ∧ Walk cfg ctx l₁ s s' ∧
      RdeState.dumpWalk cfg ctx n l s = .ok (l₂.head?, s') ∧
      ∀ k ∈ l₂.head?, s'.dumpSkips ctx k = false) ∨
    ∃ l₁ k l₂ s₁ e, l = l₁ ++ k :: l₂ ∧ Walk cfg ctx l₁ s s₁ ∧ s₁.dumpSkips ctx k = false ∧
      s₁.dumpCall cfg ctx k = .error e ∧ RdeState.dumpWalk cfg ctx n l s = .error e := by
  induction l generalizing n s with
  | nil => exact Or.inl ⟨[], [], s, rfl, Walk.nil s, by cases n <;> rfl, by simp⟩
  | cons k l ih =>
    rw [RdeState.dumpWalk.eq_def]
    dsimp only
    cases hskip : s.dumpSkips ctx k with
    | true =>
      simp only [if_true]
      rcases ih n s with ⟨l₁, l₂, s', rfl, hwalk, hrun, hpos⟩ |
        ⟨l₁, x, l₂, s₁, e, rfl, hwalk, hx, hcall, hrun⟩
      · exact Or.inl ⟨k :: l₁, l₂, s', rfl, Walk.skip hskip hwalk, hrun, hpos⟩
      · exact Or.inr ⟨k :: l₁, x, l₂, s₁, e, rfl, Walk.skip hskip hwalk, hx, hcall, hrun⟩
    | false =>
      simp only [Bool.false_eq_true, if_false]
      cases n with
      | zero =>
        refine Or.inl ⟨[], k :: l, s, rfl, Walk.nil s, rfl, ?_⟩
        rintro x ⟨⟩
        exact hskip
      | succ n =>
        cases hcall : s.dumpCall cfg ctx k with
        | error e =>
          exact Or.inr ⟨[], k, l, s, e, rfl, Walk.nil s, hskip, hcall, rfl⟩
        | ok s₁ =>
          simp only [bind, Except.bind]
          rcases ih n s₁ with ⟨l₁, l₂, s', rfl, hwalk, hrun, hpos⟩ |
            ⟨l₁, x, l₂, s₂, e, rfl, hwalk, hx, hcall', hrun⟩
          · exact Or.inl ⟨k :: l₁, l₂, s', rfl, Walk.visit hskip hcall hwalk, hrun, hpos⟩
          · exact Or.inr ⟨k :: l₁, x, l₂, s₂, e, rfl, Walk.visit hskip hcall hwalk, hx,
              hcall', hrun⟩

theorem SysWf.walk (h : SysWf cfg s) (hw : Walk cfg ctx l s s') : SysWf cfg s' := by
  induction hw with
  | nil s => exact h
  | skip _ _ ih => exact ih h
  | visit _ hcall _ ih => exact ih (h.dumpCall hcall)

/-- A round of a dump: it pauses at an element, or it is done. -/
theorem ribDumpR_cases {i n : ℕ} (hrun : s.ribDumpR cfg i n = .ok s') :
    s' = s ∨ ∃ ctx l₁ l₂ s₁, s.dumps[i]? = some ctx ∧ s.dumpRest ctx.pos = l₁ ++ l₂ ∧
      Walk cfg ctx l₁ s s₁ ∧
      ((∃ k rest, l₂ = k :: rest ∧ s₁.dumpSkips ctx k = false ∧
        s' = { s₁ with dumps := s₁.dumps.set i { ctx with pos := some k } }) ∨
      l₂ = [] ∧ s' = { s₁ with dumps := s₁.dumps.eraseIdx i }.dumpDone ctx.peer ctx.aid) := by
  unfold RdeState.ribDumpR at hrun
  cases hctx : s.dumps[i]? with
  | none =>
    rw [hctx] at hrun
    exact Or.inl (Except.ok.inj hrun).symm
  | some ctx =>
    right
    rw [hctx] at hrun
    dsimp only at hrun
    rcases dumpWalk_cases cfg ctx n (s.dumpRest ctx.pos) s with
      ⟨l₁, l₂, s₁, hl, hwalk, hres, hpos⟩ | ⟨l₁, k, l₂, s₁, e, _, _, _, _, hres⟩
    · refine ⟨ctx, l₁, l₂, s₁, rfl, hl, hwalk, ?_⟩
      rw [hres] at hrun
      cases l₂ with
      | nil => exact Or.inr ⟨rfl, (Except.ok.inj hrun).symm⟩
      | cons k rest => exact Or.inl ⟨k, rest, rfl, hpos k rfl, (Except.ok.inj hrun).symm⟩
    · rw [hres] at hrun
      cases hrun

theorem SysWf.ribDumpR (h : SysWf cfg s) {i n : ℕ} (hrun : s.ribDumpR cfg i n = .ok s') :
    SysWf cfg s' := by
  rcases ribDumpR_cases hrun with rfl | ⟨ctx, l₁, l₂, s₁, _, _, hwalk, hend⟩
  · exact h
  · have h₁ := h.walk hwalk
    rcases hend with ⟨k, rest, _, _, rfl⟩ | ⟨_, rfl⟩
    · exact h₁.setDumps _
    · exact (h₁.setDumps _).dumpDone ctx.peer ctx.aid

/-! ## Sessions -/

theorem SysWf.ribDumpTerminate (h : SysWf cfg s) (q : PeerId) :
    SysWf cfg (s.ribDumpTerminate q) := by
  unfold RdeState.ribDumpTerminate
  refine SysWf.setDumps ?_ _
  induction s.dumps.filter (·.peer = q) generalizing s with
  | nil => exact h
  | cons ctx l ih => exact ih (h.dumpDone ctx.peer ctx.aid)

theorem SysWf.flushPending (h : SysWf cfg s) (q : PeerId) : SysWf cfg (s.flushPending q) :=
  h.setPeer (h.out.confId q) rfl (fun _ => PendQueue.Wf.empty) rfl

theorem SysWf.stopOutput (h : SysWf cfg s) (q : PeerId) : SysWf cfg (s.stopOutput q) :=
  (h.ribDumpTerminate q).flushPending q

theorem SysWf.peerFlush (h : SysWf cfg s) (q : PeerId) (aid : Option Aid) (staletime : Option ℕ) :
    SysWf cfg (s.peerFlush cfg q aid staletime) :=
  (h.rib.peerFlush q aid staletime).sysWf h

theorem SysWf.peerDown (h : SysWf cfg s) (q : PeerId) : SysWf cfg (s.peerDown cfg q) := by
  have hdown : SysWf cfg (s.setDown q) := h.setPeer (h.out.confId q) rfl (h.out.pend q) rfl
  exact (hdown.stopOutput q).peerFlush q none none

theorem SysWf.peerStale (h : SysWf cfg s) (q : PeerId) (aid : Aid) (flushall : Bool) (now : ℕ) :
    SysWf cfg (s.peerStale cfg q aid flushall now) := by
  have h₁ : SysWf cfg (s.flushStaler cfg q aid) := by
    unfold RdeState.flushStaler
    split
    · exact h.peerFlush q (some aid) _
    · exact h
  have h₂ : SysWf cfg ((s.flushStaler cfg q aid).setStale q aid now) :=
    h₁.setPeer (h₁.out.confId q) rfl (h₁.out.pend q) rfl
  unfold RdeState.peerStale
  dsimp only
  split_ifs
  · exact (h₂.stopOutput q).peerFlush q (some aid) none
  · exact h₂.stopOutput q

theorem SysWf.flowspecDump (h : SysWf cfg s) {l : List PtEntry}
    (hrun : s.flowspecDump cfg q l = .ok s') : SysWf cfg s' := by
  induction l generalizing s with
  | nil =>
    obtain rfl := Except.ok.inj hrun
    exact h
  | cons k l ih =>
    rw [RdeState.flowspecDump] at hrun
    cases hk : s.dumpUpcall cfg q ribLocStart k with
    | error e =>
      simp only [hk, bind, Except.bind] at hrun
      cases hrun
    | ok s₁ =>
      simp only [hk, bind, Except.bind] at hrun
      exact ih (h.dumpUpcall hk) hrun

/-- Entries without path ids, in terms of the map. -/
theorem entries_zero_iff {arr : List AdjoutPrefix} :
    (∀ e ∈ adjoutEntries q arr, e.1 = 0) ↔ ∀ id ≠ 0, adjoutView q arr id = none := by
  simp only [adjoutView_eq_none_iff]
  constructor
  · rintro h id hid e he rfl
    exact hid (h e he)
  · intro h e he
    by_contra hne
    exact h e.1 hne e he rfl

theorem addKey_out (pt : PtEntry) (q : PeerId) (k : PtEntry) :
    (s.addKey pt).out q k = s.out q k := by
  unfold RdeState.addKey
  split_ifs <;> rfl

theorem addKey_peers (pt : PtEntry) : (s.addKey pt).peers = s.peers := by
  unfold RdeState.addKey
  split_ifs <;> rfl

theorem OutFrame.of_default {env : UpEnv} {peer : OutParams} {out out' : Out} (h : out.Wf)
    (hids : ∀ e ∈ adjoutEntries peer.conf.id out.adjout, e.1 = 0)
    (hrun : upGenerateDefault env peer aid out = .ok out') :
    OutFrame peer.conf.id (defaultPt aid) out out' ∧
      ∀ id ≠ 0, adjoutView peer.conf.id out'.adjout id = none := by
  rcases upGenerateDefault_spec env peer aid h hids with
    ⟨_, hres⟩ | ⟨a, out₁, _, _, hset, hres | ⟨hres, _⟩⟩
  all_goals rw [hres] at hrun; obtain rfl := Except.ok.inj hrun
  · exact ⟨OutFrame.refl h, entries_zero_iff.mp hids⟩
  all_goals
    have hview : ∀ id ≠ 0, adjoutView peer.conf.id out₁.adjout id = none := by
      intro id hid
      rw [hset.view, if_neg hid]
      exact entries_zero_iff.mp hids id hid
  · exact ⟨hset.toOutFrame, hview⟩
  · exact ⟨hset.toOutFrame.err, hview⟩

theorem SysWf.throttle (h : SysWf cfg s) (q : PeerId) : SysWf cfg (s.throttle q) :=
  h.setPeer (h.out.confId q) rfl (h.out.pend q) rfl

/-- The default route touches one peer, one prefix and path id 0 only. -/
theorem dumpDefault_frame (h : SysWf cfg s) (hexp : (s.peers q).exportType = .defaultRoute)
    (hstate : (s.peers q).state ≠ .none) (hrun : s.dumpDefault cfg q aid = .ok s') :
    GenFrame (defaultPt aid) (s.addKey (defaultPt aid)) s' ∧
      (∀ p ≠ q, Unaffected p (s.addKey (defaultPt aid)) s') ∧
      ∀ id ≠ 0, adjoutView q (s'.adjout (defaultPt aid)) id = none := by
  unfold RdeState.dumpDefault at hrun
  cases hgen : upGenerateDefault (s.upEnv cfg) (s.peers q).toOutParams aid
      (s.out q (defaultPt aid)) with
  | error e =>
    rw [hgen] at hrun
    cases hrun
  | ok out' =>
    rw [hgen] at hrun
    obtain rfl := Except.ok.inj hrun
    have hids : ∀ e ∈ adjoutEntries (s.peers q).conf.id (s.out q (defaultPt aid)).adjout,
        e.1 = 0 := by
      rw [h.out.confId]
      exact h.default q hexp (defaultPt aid)
    obtain ⟨hframe, hview⟩ := OutFrame.of_default (h.out.out q (defaultPt aid)) hids hgen
    rw [h.out.confId] at hframe hview
    have hkey := (h.rib.addKey (defaultPt aid)).1
    rw [← addKey_out (defaultPt aid)] at hframe
    obtain ⟨hf, hu⟩ := setOut_frame (hkey.outWf h.out) (by rwa [addKey_peers]) hframe
    refine ⟨hf, hu, fun id hid => ?_⟩
    rw [show ((s.addKey (defaultPt aid)).setOut q (defaultPt aid) out').adjout (defaultPt aid) =
      out'.adjout from if_pos rfl]
    exact hview id hid

theorem SysWf.dumpDefault (h : SysWf cfg s) (hexp : (s.peers q).exportType = .defaultRoute)
    (hstate : (s.peers q).state ≠ .none) (hrun : s.dumpDefault cfg q aid = .ok s') :
    SysWf cfg s' := by
  obtain ⟨hf, hu, hview⟩ := dumpDefault_frame h hexp hstate hrun
  have hkey := (h.rib.addKey (defaultPt aid)).1.sysWf h
  refine hf.sysWf hkey fun p hp => ?_
  by_cases hpq : p = q
  · subst hpq
    exact entries_zero_iff.mpr hview
  · rw [(hu p hpq).entries]
    exact hkey.default p hp (defaultPt aid)

theorem GenFrame.state_ne (h : GenFrame pt s s') (hs : (s.peers q).state ≠ .none) :
    (s'.peers q).state ≠ .none := by
  rcases h.state q with he | ⟨he, _⟩
  · rwa [he]
  · rw [he]
    decide

theorem flowspecDump_state (h : SysWf cfg s) {l : List PtEntry} (hs : (s.peers q).state ≠ .none)
    (hrun : s.flowspecDump cfg q l = .ok s') : (s'.peers q).state ≠ .none := by
  induction l generalizing s with
  | nil =>
    obtain rfl := Except.ok.inj hrun
    exact hs
  | cons k l ih =>
    rw [RdeState.flowspecDump] at hrun
    cases hk : s.dumpUpcall cfg q ribLocStart k with
    | error e =>
      simp only [hk, bind, Except.bind] at hrun
      cases hrun
    | ok s₁ =>
      simp only [hk, bind, Except.bind] at hrun
      refine ih (h.dumpUpcall hk) ?_ hrun
      rcases dumpUpcall_cases hk with ⟨_, rfl⟩ | ⟨_, s₂, hgen, rfl⟩
      · exact hs
      · exact (peerGenerateUpdate_frame h.rib h.out hgen).1.state_ne hs

theorem dumpDone_state (q : PeerId) (aid : Aid) (p : PeerId) :
    ((s.dumpDone q aid).peers p).state = (s.peers p).state := by
  unfold RdeState.dumpDone
  rw [setPeer_peers]
  split_ifs with h
  · rw [h]
  · rfl

theorem throttle_peer (q : PeerId) :
    (s.throttle q).peers q = { s.peers q with throttled := true } := if_pos rfl

/-- `peer_dump` -/
theorem SysWf.peerDump (h : SysWf cfg s) (hs : (s.peers q).state ≠ .none)
    (hrun : s.peerDump cfg q aid = .ok s') : SysWf cfg s' ∧ (s'.peers q).state ≠ .none := by
  have ht := h.throttle q
  have hst : ((s.throttle q).peers q).state ≠ .none := by
    rw [throttle_peer]
    exact hs
  unfold RdeState.peerDump at hrun
  dsimp only at hrun
  cases hexp : ((s.throttle q).peers q).exportType with
  | none =>
    rw [hexp] at hrun
    obtain rfl := Except.ok.inj hrun
    exact ⟨ht.dumpDone q aid, by rwa [dumpDone_state]⟩
  | defaultRoute =>
    rw [hexp] at hrun
    obtain ⟨s₁, hrun₁, rfl⟩ := except_map_ok hrun
    refine ⟨(ht.dumpDefault hexp hst hrun₁).dumpDone q aid, ?_⟩
    rw [dumpDone_state]
    exact (dumpDefault_frame ht hexp hst hrun₁).1.state_ne (by rwa [addKey_peers])
  | unset =>
    rw [hexp] at hrun
    dsimp only at hrun
    split_ifs at hrun
    · obtain ⟨s₁, hrun₁, rfl⟩ := except_map_ok hrun
      refine ⟨(ht.flowspecDump hrun₁).dumpDone q aid, ?_⟩
      rw [dumpDone_state]
      exact flowspecDump_state ht hst hrun₁
    · obtain rfl := Except.ok.inj hrun
      exact ⟨ht.setDumps _, hst⟩

/-- Starting dumps to a peer keeps the system well formed. -/
theorem SysWf.startDumps (h : SysWf cfg s) (hs : (s.peers q).state ≠ .none) {forceSync : Bool}
    {aids : List Aid} (hrun : s.startDumps cfg q forceSync aids = .ok s') : SysWf cfg s' := by
  induction aids generalizing s with
  | nil =>
    obtain rfl := Except.ok.inj hrun
    exact h
  | cons aid aids ih =>
    rw [RdeState.startDumps] at hrun
    split_ifs at hrun
    · exact ih h hs hrun
    · cases hd : s.peerDump cfg q aid with
      | error e =>
        simp only [hd, bind, Except.bind] at hrun
        cases hrun
      | ok s₁ =>
        simp only [hd, bind, Except.bind] at hrun
        obtain ⟨h₁, hs₁⟩ := h.peerDump hs hd
        exact ih h₁ hs₁ hrun
    · have hb : SysWf cfg (s.peerBlast q aid) := h.setDumps _
      exact ih hb hs hrun

/-- The start of `peer_up`: a session that was ended by an error is cleaned up. -/
def RdeState.resetErr (cfg : RdeConfig) (s : RdeState) (q : PeerId) : RdeState :=
  if (s.peers q).state = .err then s.peerDown cfg q else s

theorem peerUp_cases {sup : SessionUp} (hrun : s.peerUp cfg q sup = .ok s') :
    ∃ s₁, ((s.resetErr cfg q).setPeer q (((s.resetErr cfg q).peers q).withSession sup)).startDumps
        cfg q (!((s.resetErr cfg q).peers q).inSync sup) Aid.all = .ok s₁ ∧
      s' = { s₁ with evalAll := s₁.evalAll || Aid.all.any sup.capa.addPathSend } := by
  change (((s.resetErr cfg q).setPeer q (((s.resetErr cfg q).peers q).withSession sup)).startDumps
    cfg q (!((s.resetErr cfg q).peers q).inSync sup) Aid.all).bind (fun s₁ =>
      .ok { s₁ with evalAll := s₁.evalAll || Aid.all.any sup.capa.addPathSend }) = .ok s' at hrun
  cases hd :
    ((s.resetErr cfg q).setPeer q (((s.resetErr cfg q).peers q).withSession sup)).startDumps
      cfg q (!((s.resetErr cfg q).peers q).inSync sup) Aid.all with
  | error e =>
    rw [hd] at hrun
    cases hrun
  | ok s₁ =>
    rw [hd] at hrun
    exact ⟨s₁, rfl, (Except.ok.inj hrun).symm⟩

theorem SysWf.resetErr (h : SysWf cfg s) (q : PeerId) : SysWf cfg (s.resetErr cfg q) := by
  unfold RdeState.resetErr
  split_ifs
  · exact h.peerDown q
  · exact h

theorem SysWf.withSession (h : SysWf cfg s) (q : PeerId) (sup : SessionUp) :
    SysWf cfg (s.setPeer q ((s.peers q).withSession sup)) :=
  h.setPeer (h.out.confId q) rfl (h.out.pend q) rfl

theorem SysWf.peerUp (h : SysWf cfg s) {sup : SessionUp} (hrun : s.peerUp cfg q sup = .ok s') :
    SysWf cfg s' := by
  obtain ⟨s₁, hd, rfl⟩ := peerUp_cases hrun
  have h₀ := (h.resetErr q).withSession q sup
  have h₁ : SysWf cfg s₁ := by
    refine h₀.startDumps ?_ hd
    rw [setPeer_peers, if_pos rfl]
    exact PeerState.noConfusion
  refine ⟨h₁.rib.congr rfl rfl rfl fun he => ?_, ⟨h₁.out.confId, h₁.out.adjout, h₁.out.pend⟩,
    h₁.queue.congr rfl fun _ => rfl, h₁.default⟩
  show (s₁.evalAll || _) = true
  rw [he]
  rfl

/-! ## Sending -/

/-- What is left of a pending queue is in order. -/
theorem PendQueue.Wf.sublist {pend pend' : PendQueue} (h : pend.Wf)
    (hw : pend'.withdraws.Sublist pend.withdraws)
    (hu : (groupList pend'.updates).Sublist (groupList pend.updates))
    (hg : (pend'.updates.map (·.attrs)).Sublist (pend.updates.map (·.attrs))) : pend'.Wf where
  keys := h.keys.sublist (List.Sublist.map _ (List.Sublist.append (hw.map _) hu))
  groups := h.groups.sublist hg
  eor e he := h.eor e (hu.subset he)

/-- The prefixes that did not fit a message. -/
theorem groupList_drop (pa : PendAttr) (rest : List PendAttr) (n : ℕ) :
    groupList (if pa.prefixes.drop n = [] then rest
      else { pa with prefixes := pa.prefixes.drop n } :: rest) =
      (pa.prefixes.drop n).map (·, pa.attrs) ++ groupList rest := by
  split_ifs with hd
  · rw [hd]
    rfl
  · rfl

theorem SysWf.sendMsg (h : SysWf cfg s) (q : PeerId) (aid : Aid) {pend : PendQueue}
    (hpend : pend.Wf) (msg : List UpdateMsg) : SysWf cfg (s.sendMsg q aid pend msg) := by
  refine h.setPeer (h.out.confId q) rfl (fun a => ?_) rfl
  dsimp only
  split_ifs
  · exact hpend
  · exact h.out.pend q a

theorem SysWf.upDumpWithdraws (h : SysWf cfg s) (q : PeerId) (aid : Aid) (n : ℕ) :
    SysWf cfg (s.upDumpWithdraws q aid n) := by
  unfold RdeState.upDumpWithdraws
  dsimp only
  split_ifs
  · refine h.sendMsg q aid ?_ _
    exact (h.out.pend q aid).sublist (List.drop_sublist n _) (List.Sublist.refl _)
      (List.Sublist.refl _)
  · exact h

/-- One dump to a peer keeps the system well formed. -/
theorem SysWf.upDumpUpdate (h : SysWf cfg s) (q : PeerId) (aid : Aid) (n : ℕ) :
    SysWf cfg (s.upDumpUpdate q aid n) := by
  have hpend := h.out.pend q aid
  unfold RdeState.upDumpUpdate
  dsimp only
  split_ifs
  swap
  · exact h
  split
  · exact h
  · next pa rest hus =>
    have hall : groupList ((s.peers q).pend aid).updates =
        pa.prefixes.map (·, pa.attrs) ++ groupList rest := by
      rw [hus]
      rfl
    by_cases heor : pa.attrs.isNone = true
    · rw [if_pos heor]
      refine h.sendMsg q aid ?_ _
      refine hpend.sublist (List.Sublist.refl _) ?_ ?_
      · rw [hall]
        exact List.sublist_append_right _ _
      · rw [hus]
        exact List.sublist_cons_self _ _
    · rw [if_neg heor]
      refine h.sendMsg q aid ?_ _
      refine hpend.sublist (List.Sublist.refl _) ?_ ?_
      · rw [hall, groupList_drop]
        exact List.Sublist.append ((List.drop_sublist n _).map _) (List.Sublist.refl _)
      · rw [hus]
        dsimp only
        split_ifs
        · exact List.sublist_cons_self _ _
        · exact List.Sublist.refl _

/-! ## All events -/

/-- Updates have path ids as `pathid_assign` gives them. -/
def Event.valid (s : RdeState) : Event → Prop
  | .update a => s.pathidAssigned a
  | _ => True

instance (s : RdeState) (e : Event) : Decidable (e.valid s) :=
  match e with
  | .update a => inferInstanceAs (Decidable (s.pathidAssigned a))
  | .withdraw .. | .flush .. | .nexthop .. | .process _ | .dump .. | .up .. | .down _
  | .stale .. | .sendWithdraws .. | .sendUpdate .. => isTrue trivial

/-- Every event keeps the invariant. -/
theorem SysWf.step (h : SysWf cfg s) {e : Event} (he : e.valid s)
    (hstep : s.step cfg e = .ok s') : SysWf cfg s' := by
  cases e with
  | update a => exact (h.rib.prefixUpdate he hstep).sysWf h
  | withdraw rib peer pathId pt =>
    obtain rfl := Except.ok.inj hstep
    exact (h.rib.prefixWithdraw rib peer pathId pt).sysWf h
  | flush peer aid staletime =>
    obtain rfl := Except.ok.inj hstep
    exact h.peerFlush peer aid staletime
  | nexthop rib pt p state oldstate =>
    obtain rfl := Except.ok.inj hstep
    exact (h.rib.evaluateNexthop rib pt p state oldstate).sysWf h
  | process q => exact h.peerProcessUpdates hstep
  | dump i n => exact h.ribDumpR hstep
  | up q sup => exact h.peerUp hstep
  | down q =>
    obtain rfl := Except.ok.inj hstep
    exact h.peerDown q
  | stale q aid flushall now =>
    obtain rfl := Except.ok.inj hstep
    exact h.peerStale q aid flushall now
  | sendWithdraws q aid n =>
    obtain rfl := Except.ok.inj hstep
    exact h.upDumpWithdraws q aid n
  | sendUpdate q aid n =>
    obtain rfl := Except.ok.inj hstep
    exact h.upDumpUpdate q aid n

theorem RdeState.Empty.sysWf (h : s.Empty cfg) : SysWf cfg s where
  rib := h.ribWf
  out := h.outWf
  queue rib pt hm := by simp [h.entry] at hm
  default q _ pt := by simp [h.adjout]

end Bgpd.Rde
