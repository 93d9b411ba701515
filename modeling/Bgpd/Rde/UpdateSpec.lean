import Bgpd.Rde.OutSpec
import Bgpd.Rde.Update

/-!
# What the Generators Do

The outcome of a generator of `Bgpd.Rde.Update`, and the specification of the generator for
regular peers: the abstract selection it implements, a function of the eligible paths alone,
and a proof that a call brings the path ids it is responsible for in line with the selection.
`Bgpd.Rde.AddpathSpec` does the same for peers with add-path.

## Main results

- `Generated`, `GenOutcome`: the outcome of a generator
- `selectRegular`: what a regular peer is to be told
- `upGenerateUpdates_spec`
-/

namespace Bgpd.Rde

open Bgpd.Lib

variable {env : UpEnv} {peer : OutParams} {pt : PtEntry} {mode : EvalMode} {out out₁ out' : Out}

/-! ## The decision about one path -/

theorem upTestUpdate_ok (env : UpEnv) (peer : OutParams) {p : Prefix} (h : prefixEligible p) :
    ∃ b, upTestUpdate env peer p = .ok b := by
  unfold prefixEligible at h
  unfold upTestUpdate
  cases ha : p.aspath with
  | none => simp [ha] at h
  | some asp =>
    simp only [ha, Bool.and_eq_true, Bool.not_eq_true', Bool.or_eq_false_iff] at h
    obtain ⟨⟨_, ⟨hloop, hotc⟩, hparse⟩, _⟩ := h
    simp only [hloop, hotc, hparse, Bool.false_eq_true, or_self, if_false]
    split_ifs <;> exact ⟨_, rfl⟩

/-- The decision about an eligible path. -/
def upDecision (env : UpEnv) (peer : OutParams) (p : Prefix) : UpDecision :=
  match upDecide env peer p with
  | .ok d => d
  | .error _ => .excluded

theorem upDecide_eq (env : UpEnv) (peer : OutParams) {p : Prefix} (h : prefixEligible p) :
    upDecide env peer p = .ok (upDecision env peer p) := by
  obtain ⟨b, hb⟩ := upTestUpdate_ok env peer h
  have hok : ∃ d, upDecide env peer p = .ok d := by
    unfold upDecide
    simp only [hb, bind, Except.bind]
    split
    · exact ⟨_, rfl⟩
    · split
      · exact ⟨_, rfl⟩
      · split <;> exact ⟨_, rfl⟩
  obtain ⟨d, hd⟩ := hok
  rw [upDecision, hd]

/-- The attributes a path is announced with, if it is. -/
def UpDecision.attrs : UpDecision → Option AdjoutAttr
  | .announce a => some a
  | _ => none

/-! ## Outcome of a generator -/

/-- Is the peer told about an entry that was `old` and has to be `new`? A dump sends
    everything it finds but no withdraws. -/
def told (mode : EvalMode) (old new : Option AdjoutAttr) : Bool :=
  if new.isSome then mode = .sync ∨ old ≠ new else mode ≠ .sync ∧ old.isSome

/-- The entries with path ids in `R` are in line with `sel`, the others were not touched. -/
structure Generated (peer : PeerId) (pt : PtEntry) (mode : EvalMode) (R : Set ℕ)
    (sel : ℕ → Option AdjoutAttr) (out out' : Out) : Prop extends OutFrame peer pt out out' where
  view : ∀ id ∈ R, adjoutView peer out'.adjout id = sel id
  viewRest : ∀ id ∉ R, adjoutView peer out'.adjout id = adjoutView peer out.adjout id
  pending : out.state = .up → ∀ id ∈ R, out'.pend.pending (pt, id) =
    if told mode (adjoutView peer out.adjout id) (sel id) then some (sel id)
    else out.pend.pending (pt, id)
  pendingRest : out.state = .up → ∀ id ∉ R,
    out'.pend.pending (pt, id) = out.pend.pending (pt, id)

/-- The result of a generator: an error, which is never the consistency abort of the
    Adj-RIB-Out, or the session was ended by the outbound limit, or the entries with path ids in
    `R` are in line with the selection. New entries have path ids in `ids`. -/
inductive GenOutcome (peer : OutParams) (pt : PtEntry) (mode : EvalMode) (R ids : Set ℕ)
    (sel : Except Fatal (ℕ → Option AdjoutAttr)) (out : Out) : Except Fatal Out → Prop
  | error {e : Fatal} (hne : e ≠ .kingBula)
      (hsel : sel = .error e ∨ e = .tooManyPaths ∧
        addpathPrefixListLen ≤ (adjoutEntries peer.conf.id out.adjout).length) :
      GenOutcome peer pt mode R ids sel out (.error e)
  | limit {out' : Out} (frame : OutFrame peer.conf.id pt out out') (state : out'.state = .err)
      (max : peer.conf.maxOutPrefix ≠ 0)
      (view : ∀ id ∉ ids, adjoutView peer.conf.id out'.adjout id = none ∨
        adjoutView peer.conf.id out'.adjout id = adjoutView peer.conf.id out.adjout id) :
      GenOutcome peer pt mode R ids sel out (.ok out')
  | done {f : ℕ → Option AdjoutAttr} {out' : Out} (hsel : sel = .ok f)
      (gen : Generated peer.conf.id pt mode R f out out') (state : out'.state = out.state)
      (hids : ∀ id ∈ R, f id ≠ none → id ∈ ids) :
      GenOutcome peer pt mode R ids sel out (.ok out')

theorem upCheckLimit_cases (peer : OutParams) (out : Out) :
    upCheckLimit peer out = (.ok, out) ∨
      upCheckLimit peer out = (.errLimit, { out with state := .err }) ∧
        peer.conf.maxOutPrefix ≠ 0 := by
  unfold upCheckLimit
  split_ifs with h
  · exact Or.inr ⟨rfl, h.1⟩
  · exact Or.inl rfl

/-- The path id and the entry a call of `up_process_prefix` is for. -/
def IsTarget (q : PeerId) (new : Prefix) (p : Option (Option ℕ)) (id : ℕ) (out : Out) : Prop :=
  match p with
  | none => id = new.pathIdTx
  | some p => id = 0 ∧ IsEntry q 0 p out

/-- The update in `up_process_prefix`. -/
theorem upProcessPrefix_announce (h : out.Wf) {new : Prefix} {p : Option (Option ℕ)} {id : ℕ}
    (hp : IsTarget peer.conf.id new p id out) {a : AdjoutAttr} (mode : EvalMode)
    (hd : upDecide env peer new = .ok (.announce a)) :
    ∃ out₁, upProcessPrefix env peer new p mode out = .ok (upCheckLimit peer out₁) ∧
      OutSet peer.conf.id new.pt id (some a)
        (mode = .sync || adjoutView peer.conf.id out.adjout id ≠ some a) out out₁ := by
  unfold upProcessPrefix
  rw [hd]
  cases p with
  | some p =>
    obtain ⟨rfl, hp⟩ := hp
    obtain ⟨out₁, hout₁, hset⟩ := adjoutPrefixUpdate_spec h a new.pt (mode = .sync) hp
    exact ⟨out₁, by simp only [bind, Except.bind, hout₁], hset⟩
  | none =>
    obtain rfl : id = new.pathIdTx := hp
    obtain ⟨out₁, hout₁, hset⟩ := adjoutPrefixUpdate_spec h a new.pt (mode = .sync)
      (h.isEntry_get peer.conf.id new.pathIdTx)
    exact ⟨out₁, by simp only [bind, Except.bind, hout₁], hset⟩

/-- `up_process_prefix` for an eligible path: nothing happens, or the entry is brought in line
    and then the limit is checked. -/
theorem upProcessPrefix_cases (env : UpEnv) (peer : OutParams) (mode : EvalMode) (h : out.Wf)
    {new : Prefix}
    (hel : prefixEligible new) {p : Option (Option ℕ)} {id : ℕ}
    (hp : IsTarget peer.conf.id new p id out) :
    (upDecision env peer new = .filtered ∧
      upProcessPrefix env peer new p mode out = .ok (.filtered, out)) ∨
    (upDecision env peer new = .excluded ∧
      upProcessPrefix env peer new p mode out = .ok (.excluded, out)) ∨
    ∃ a out₁, upDecision env peer new = .announce a ∧
      OutSet peer.conf.id new.pt id (some a)
        (mode = .sync || adjoutView peer.conf.id out.adjout id ≠ some a) out out₁ ∧
      (upProcessPrefix env peer new p mode out = .ok (.ok, out₁) ∨
        upProcessPrefix env peer new p mode out = .ok (.errLimit, { out₁ with state := .err }) ∧
          peer.conf.maxOutPrefix ≠ 0) := by
  have hd := upDecide_eq env peer hel
  cases hdec : upDecision env peer new with
  | filtered => exact Or.inl ⟨rfl, by rw [upProcessPrefix, hd, hdec]; rfl⟩
  | excluded => exact Or.inr (Or.inl ⟨rfl, by rw [upProcessPrefix, hd, hdec]; rfl⟩)
  | announce a =>
    rw [hdec] at hd
    obtain ⟨out₁, hout₁, hset⟩ := upProcessPrefix_announce h hp mode hd
    refine Or.inr (Or.inr ⟨a, out₁, rfl, hset, ?_⟩)
    rw [hout₁]
    rcases upCheckLimit_cases peer out₁ with hlim | ⟨hlim, hmax⟩
    · exact Or.inl (by rw [hlim])
    · exact Or.inr ⟨by rw [hlim], hmax⟩

/-- A session that a limit ended still has the entries. -/
theorem OutFrame.err {q : PeerId} (h : OutFrame q pt out out') :
    OutFrame q pt out { out' with state := .err } :=
  ⟨⟨h.wf.adjout, h.wf.pend⟩, h.other, h.pendOther, h.pendDown, Or.inr rfl⟩

/-! ## Regular peers -/

/-- What a regular peer is told: the best path, or with `rde evaluate all` the best of those
    that the filters let through. -/
def selectRegular (env : UpEnv) (peer : OutParams) : List Prefix → Option AdjoutAttr
  | [] => none
  | new :: rest =>
    match upDecision env peer new with
    | .announce a => some a
    | .filtered => if peer.flags.evaluateAll then selectRegular env peer rest else none
    | .excluded => none

/-- The selection as a map: path id 0 is the only one. -/
def selRegular (env : UpEnv) (peer : OutParams) (chain : List Prefix) (id : ℕ) :
    Option AdjoutAttr :=
  if id = 0 then selectRegular env peer chain else none

/-- The loop of `up_generate_updates`. -/
theorem upUpdatesLoop_spec (env : UpEnv) (mode : EvalMode) (h : out.Wf) {p : Option ℕ}
    (hp : IsEntry peer.conf.id 0 p out) {chain : List Prefix}
    (hel : ∀ x ∈ chain, prefixEligible x) (hpt : ∀ x ∈ chain, x.pt = pt) :
    (selectRegular env peer chain = none ∧
      upUpdatesLoop env peer p mode chain out = .ok (false, out)) ∨
    ∃ a out₁ out', selectRegular env peer chain = some a ∧
      upUpdatesLoop env peer p mode chain out = .ok (true, out') ∧
      OutSet peer.conf.id pt 0 (some a)
        (mode = .sync || adjoutView peer.conf.id out.adjout 0 ≠ some a) out out₁ ∧
      (out' = out₁ ∨ out' = { out₁ with state := .err } ∧ peer.conf.maxOutPrefix ≠ 0) := by
  induction chain with
  | nil => exact Or.inl ⟨rfl, rfl⟩
  | cons new rest ih =>
    have helr : ∀ x ∈ rest, prefixEligible x := fun x hx => hel x (List.mem_cons_of_mem _ hx)
    have hptr : ∀ x ∈ rest, x.pt = pt := fun x hx => hpt x (List.mem_cons_of_mem _ hx)
    have hnew : new.pt = pt := hpt new (List.mem_cons_self ..)
    have htarget : IsTarget peer.conf.id new (some p) 0 out := ⟨rfl, hp⟩
    rw [upUpdatesLoop, selectRegular]
    rcases upProcessPrefix_cases env peer mode h (hel new (List.mem_cons_self ..)) htarget with
      ⟨hdec, hres⟩ | ⟨hdec, hres⟩ | ⟨a, out₁, hdec, hset, hres⟩
    · rw [hdec, hres]
      simp only [bind, Except.bind]
      split_ifs with hall
      · exact ih helr hptr
      · exact Or.inl ⟨rfl, rfl⟩
    · rw [hdec, hres]
      exact Or.inl ⟨rfl, rfl⟩
    · rw [hnew] at hset
      rw [hdec]
      right
      rcases hres with hres | ⟨hres, hmax⟩
      · exact ⟨a, out₁, out₁, rfl, by rw [hres]; rfl, hset, Or.inl rfl⟩
      · exact ⟨a, out₁, _, rfl, by rw [hres]; rfl, hset, Or.inr ⟨rfl, hmax⟩⟩

/-- Withdrawing the entry with a path id, if the peer has it. -/
theorem withdrawEntry_spec {q : PeerId} {id : ℕ} (pt : PtEntry) (skipSend : Bool) (h : out.Wf)
    {p : Option ℕ} (hp : IsEntry q id p out) :
    ∃ out', withdrawEntry q pt p skipSend out = .ok out' ∧
      OutSet q pt id none (!skipSend && (adjoutView q out.adjout id).isSome) out out' := by
  rcases hp with ⟨rfl, hview⟩ | ⟨i, e, rfl, he, rfl, hq⟩
  · refine ⟨out, rfl, ?_⟩
    have hset : OutSet q pt id none false out out := OutSet.refl h hview
    simpa [hview] using hset
  · obtain ⟨out', hrun, hset⟩ := adjoutPrefixWithdraw_spec h pt skipSend he hq
    refine ⟨out', hrun, ?_⟩
    obtain ⟨a, ha⟩ := h.adjout.exists_attrs (List.mem_of_getElem? he) hq
    simpa [h.view_get he hq, ha] using hset

/-- Taking out entries of a peer one after the other without telling it. -/
theorem withdrawAll_spec {q : PeerId} (pt : PtEntry) {es : List (ℕ × AdjoutPrefix)}
    (hnd : (es.map (·.2.pathIdTx)).Nodup) (h : out.Wf)
    (hes : ∀ e ∈ es, out.adjout[e.1]? = some e.2 ∧ q ∈ e.2.peermap) :
    ∃ out', withdrawAll q pt true (es.map (·.1)) out = .ok out' ∧ OutFrame q pt out out' ∧
      out'.state = out.state ∧ out'.pend = out.pend ∧
      ∀ id, adjoutView q out'.adjout id =
        if id ∈ es.map (·.2.pathIdTx) then none else adjoutView q out.adjout id := by
  induction es generalizing out with
  | nil => exact ⟨out, rfl, OutFrame.refl h, rfl, rfl, fun id => by simp⟩
  | cons e es ih =>
    obtain ⟨hnot, hnd⟩ := List.nodup_cons.mp hnd
    obtain ⟨he, hq⟩ := hes e (List.mem_cons_self ..)
    have hset : OutSet q pt e.2.pathIdTx none false out (out.unlink q e.1) :=
      Out.unlink_spec h he hq
    have hstep : adjoutPrefixWithdraw q pt e.1 true out = .ok (out.unlink q e.1) := by
      simp [adjoutPrefixWithdraw, he, hq]
    -- the other entries stay where they are
    have hrest : ∀ e' ∈ es, (out.unlink q e.1).adjout[e'.1]? = some e'.2 ∧ q ∈ e'.2.peermap := by
      intro e' he'
      obtain ⟨hget, hq'⟩ := hes e' (List.mem_cons_of_mem _ he')
      refine ⟨?_, hq'⟩
      have hne : e.1 ≠ e'.1 := by
        intro heq
        rw [heq, hget, Option.some.injEq] at he
        exact hnot (List.mem_map.mpr ⟨e', he', by rw [he]⟩)
      rw [Out.unlink, adjoutPrefixUnlink, List.getElem?_modify, hget]
      simp [hne]
    obtain ⟨out', hrun, hframe, hstate, hpend, hview⟩ := ih hnd hset.wf hrest
    refine ⟨out', ?_, hset.toOutFrame.trans hframe, hstate.trans hset.stays, hpend, fun id => ?_⟩
    · rw [List.map_cons, withdrawAll, hstep]
      exact hrun
    · rw [hview, hset.view]
      by_cases hid : id = e.2.pathIdTx
      · have hmem : id ∈ (e :: es).map (·.2.pathIdTx) := by
          rw [List.map_cons]
          exact List.mem_cons.mpr (Or.inl hid)
        rw [if_pos hid, if_pos hmem, ite_self]
      · have hiff : id ∈ (e :: es).map (·.2.pathIdTx) ↔ id ∈ es.map (·.2.pathIdTx) := by
          rw [List.map_cons, List.mem_cons, or_iff_right hid]
        simp only [if_neg hid, hiff]

/-- The path ids that `up_generate_updates` takes care of: 0, and in a dump all of them if the
    peer has none with path id 0. -/
def regularIds (mode : EvalMode) (q : PeerId) (out : Out) : Set ℕ :=
  { id | id = 0 ∨ mode = .sync ∧ ∃ e ∈ (adjoutEntries q out.adjout).head?, e.1 ≠ 0 }

/-- The first entry of a peer has its smallest path id. -/
theorem adjoutView_zero_of_head {q : PeerId} {arr : List AdjoutPrefix} (h : AdjoutWf arr)
    (hhead : ∀ e ∈ (adjoutEntries q arr).head?, e.1 ≠ 0) : adjoutView q arr 0 = none := by
  rw [adjoutView_eq_none_iff]
  have hs := h.keysSorted q
  cases hl : adjoutEntries q arr with
  | nil => simp
  | cons e₀ l =>
    rw [hl] at hs hhead
    have h₀ : e₀.1 ≠ 0 := hhead e₀ rfl
    intro e he
    rcases List.mem_cons.mp he with rfl | he
    · exact h₀
    · have := (List.pairwise_cons.mp hs).1 e he
      omega

/-- The first entry that the loop over the entries of a peer finds. -/
theorem adjoutPrefixes_head {q : PeerId} {arr : List AdjoutPrefix} (h : AdjoutWf arr) :
    ((adjoutPrefixes q arr).head?.map (·.2.pathIdTx)) = (adjoutEntries q arr).head?.map (·.1) := by
  rw [← List.head?_map, ← List.head?_map, h.adjoutPrefixes_ids]

/-- The start of `up_generate_updates`: what is left after the flush, and the entry to update. -/
theorem upFlushCached_spec (h : out.Wf) (q : PeerId) (pt : PtEntry)
    (hhead : mode = .sync ∨ ∀ e ∈ (adjoutEntries q out.adjout).head?, e.1 = 0) :
    ∃ p out₁, upFlushCached q pt mode out = .ok (p, out₁) ∧
      OutFrame q pt out out₁ ∧ out₁.state = out.state ∧ out₁.pend = out.pend ∧
      IsEntry q 0 p out₁ ∧ adjoutView q out₁.adjout 0 = adjoutView q out.adjout 0 ∧
      (∀ id ≠ 0, id ∈ regularIds mode q out → adjoutView q out₁.adjout id = none) ∧
      ∀ id ∉ regularIds mode q out, adjoutView q out₁.adjout id = adjoutView q out.adjout id := by
  have hhd := adjoutPrefixes_head (q := q) h.adjout
  have hiff : (mode = .sync ∧ (adjoutPrefixes q out.adjout).head?.any (fun e => e.2.pathIdTx ≠ 0)) ↔
      mode = .sync ∧ ∃ e ∈ (adjoutEntries q out.adjout).head?, e.1 ≠ 0 := by
    refine and_congr_right fun _ => ?_
    cases hc : (adjoutPrefixes q out.adjout).head? with
    | none =>
      rw [hc, Option.map_none, eq_comm, Option.map_eq_none_iff] at hhd
      simp [hhd]
    | some c =>
      rw [hc, Option.map_some, eq_comm, Option.map_eq_some_iff] at hhd
      obtain ⟨e, he, hid⟩ := hhd
      simp [he, hid]
  unfold upFlushCached
  by_cases hf : mode = .sync ∧ (adjoutPrefixes q out.adjout).head?.any (fun e => e.2.pathIdTx ≠ 0)
  · -- everything goes
    have hnd : ((adjoutPrefixes q out.adjout).map (·.2.pathIdTx)).Nodup := by
      rw [h.adjout.adjoutPrefixes_ids]
      exact h.adjout.nodup q
    obtain ⟨out₁, hrun, hframe, hstate, hpend, hview⟩ := withdrawAll_spec pt hnd h
      fun e he => h.adjout.adjoutPrefixes_get he
    -- so nothing is left
    have hall : ∀ id, adjoutView q out₁.adjout id = none := by
      intro id
      rw [hview, h.adjout.adjoutPrefixes_ids]
      split_ifs with hmem
      · rfl
      · rw [adjoutView_eq_none_iff]
        intro e he heq
        exact hmem (List.mem_map.mpr ⟨e, he, heq⟩)
    obtain ⟨hsync, e, he, hne⟩ := hiff.mp hf
    have hzero : adjoutView q out.adjout 0 = none := by
      apply adjoutView_zero_of_head h.adjout
      intro e' he'
      obtain rfl : e = e' := Option.mem_unique he he'
      exact hne
    refine ⟨none, out₁, by rw [if_pos hf, hrun]; rfl, hframe, hstate, hpend,
      Or.inl ⟨rfl, hall 0⟩, (hall 0).trans hzero.symm, fun id _ _ => hall id, fun id hid => ?_⟩
    exact absurd (Or.inr ⟨hsync, e, he, hne⟩) hid
  -- nothing is flushed: the head, if there is one, has path id 0
  · refine ⟨_, out, if_neg hf, OutFrame.refl h, rfl, rfl, ?_, rfl, ?_, fun _ _ => rfl⟩
    · cases hc : (adjoutPrefixes q out.adjout).head? with
      | none =>
        rw [hc] at hhd
        refine Or.inl ⟨rfl, adjoutView_zero_of_head h.adjout ?_⟩
        rw [Option.map_none, eq_comm, Option.map_eq_none_iff] at hhd
        simp [hhd]
      | some c =>
        rw [hc] at hhd
        obtain ⟨hget, hq⟩ := h.adjout.adjoutPrefixes_get (List.mem_of_head? hc)
        refine Or.inr ⟨c.1, c.2, rfl, hget, ?_, hq⟩
        rw [Option.map_some, eq_comm, Option.map_eq_some_iff] at hhd
        obtain ⟨e, he, hid⟩ := hhd
        rw [← hid]
        by_contra hne
        rcases hhead with hsync | hzero
        · exact hf (hiff.mpr ⟨hsync, e, he, hne⟩)
        · exact hne (hzero e he)
    · intro id hid hmem
      exact absurd (hiff.mpr (hmem.resolve_left hid)) hf

theorem told_some (mode : EvalMode) (old : Option AdjoutAttr) (a : AdjoutAttr) :
    told mode old (some a) = (decide (mode = .sync) || decide (old ≠ some a)) := by
  simp [told, Bool.decide_or]

theorem told_none (mode : EvalMode) (old : Option AdjoutAttr) :
    told mode old none = (!decide (mode = .sync) && old.isSome) := by
  simp [told, Bool.decide_and]

/-- The outcome when only the entry with path id 0 is left to be set. -/
theorem Generated.of_outSet {q : PeerId} {R : Set ℕ} {v : Option AdjoutAttr} (h0 : 0 ∈ R)
    (hframe : OutFrame q pt out out₁) (hstate : out₁.state = out.state)
    (hpend : out₁.pend = out.pend)
    (hzero : adjoutView q out₁.adjout 0 = adjoutView q out.adjout 0)
    (hgone : ∀ id ≠ 0, id ∈ R → adjoutView q out₁.adjout id = none)
    (hrest : ∀ id ∉ R, adjoutView q out₁.adjout id = adjoutView q out.adjout id)
    (hsync : ∀ id ≠ 0, id ∈ R → mode = .sync)
    (hset : OutSet q pt 0 v (told mode (adjoutView q out₁.adjout 0) v) out₁ out') :
    Generated q pt mode R (fun id => if id = 0 then v else none) out out' where
  toOutFrame := hframe.trans hset.toOutFrame
  view id hid := by
    rw [hset.view]
    split_ifs with h
    · rfl
    · exact hgone id h hid
  viewRest id hid := by
    have hne : id ≠ 0 := fun h => hid (h ▸ h0)
    rw [hset.view, if_neg hne]
    exact hrest id hid
  pending hup id hid := by
    rw [hset.pending (hstate.trans hup), hpend, hzero]
    by_cases h : id = 0
    · subst h
      simp
    · -- what a dump flushes is not told
      rw [if_neg fun hc => h hc.1, if_neg h, told_none, hsync id h hid]
      simp
  pendingRest hup id hid := by
    have hne : id ≠ 0 := fun h => hid (h ▸ h0)
    rw [hset.pending (hstate.trans hup), hpend, if_neg fun h => hne h.1]

/-- `up_generate_updates` for a peer without stray entries, or in a dump: the entry with path
    id 0 becomes what the selection says. -/
theorem upGenerateUpdates_spec (env : UpEnv) (peer : OutParams) (h : out.Wf) {chain : List Prefix}
    (hel : ∀ x ∈ chain, prefixEligible x) (hpt : ∀ x ∈ chain, x.pt = pt)
    (hhead : mode = .sync ∨ ∀ e ∈ (adjoutEntries peer.conf.id out.adjout).head?, e.1 = 0) :
    GenOutcome peer pt mode (regularIds mode peer.conf.id out) {0} (.ok (selRegular env peer chain))
      out (upGenerateUpdates env peer pt chain mode out) := by
  obtain ⟨p, out₁, hflush, hframe, hstate, hpend, hentry, hzero, hgone, hrest⟩ :=
    upFlushCached_spec h peer.conf.id pt hhead
  have h0 : (0 : ℕ) ∈ regularIds mode peer.conf.id out := Or.inl rfl
  have hsync : ∀ id ≠ 0, id ∈ regularIds mode peer.conf.id out → mode = .sync :=
    fun id hne hid => (hid.resolve_left hne).1
  have hgen : ∀ {out₂ : Out} {v : Option AdjoutAttr}, selectRegular env peer chain = v →
      OutSet peer.conf.id pt 0 v (told mode (adjoutView peer.conf.id out₁.adjout 0) v) out₁ out₂ →
      Generated peer.conf.id pt mode (regularIds mode peer.conf.id out)
        (selRegular env peer chain) out out₂ := by
    rintro out₂ v rfl hset
    exact Generated.of_outSet h0 hframe hstate hpend hzero hgone hrest hsync hset
  have hids : ∀ id ∈ regularIds mode peer.conf.id out,
      selRegular env peer chain id ≠ none → id ∈ ({0} : Set ℕ) := by
    intro id _ hne
    by_contra hid
    exact hne (if_neg hid)
  unfold upGenerateUpdates
  simp only [hflush, bind, Except.bind]
  rcases upUpdatesLoop_spec env mode hframe.wf hentry hel hpt with
    ⟨hsel, hloop⟩ | ⟨a, out₂, out', hsel, hloop, hset, hlim⟩
  · obtain ⟨out', hrun, hset⟩ := withdrawEntry_spec pt (mode = .sync) hframe.wf hentry
    rw [← told_none] at hset
    rw [hloop]
    simp only [Bool.false_eq_true, if_false, hrun]
    exact .done rfl (hgen hsel hset) (hset.stays.trans hstate) hids
  · rw [← told_some] at hset
    have hg := hgen hsel hset
    rw [hloop]
    simp only [if_true]
    rcases hlim with rfl | ⟨rfl, hmax⟩
    · exact .done rfl hg (hset.stays.trans hstate) hids
    · refine .limit hg.toOutFrame.err rfl hmax fun id hid => ?_
      show adjoutView peer.conf.id out₂.adjout id = none ∨
          adjoutView peer.conf.id out₂.adjout id = _
      by_cases hR : id ∈ regularIds mode peer.conf.id out
      · rw [hg.view id hR]
        exact Or.inl (if_neg hid)
      · exact Or.inr (hg.viewRest id hR)

/-! ## Entries with stray path ids -/

/-- The loop of `up_generate_updates` with an entry that has another path id than 0. -/
theorem upUpdatesLoop_stray (env : UpEnv) (peer : OutParams) (mode : EvalMode) {i : ℕ}
    {e : AdjoutPrefix}
    (he : out.adjout[i]? = some e) (hne : e.pathIdTx ≠ 0) {chain : List Prefix}
    (hel : ∀ x ∈ chain, prefixEligible x) :
    upUpdatesLoop env peer (some i) mode chain out =
      if selectRegular env peer chain = none then .ok (false, out) else .error .kingBula := by
  induction chain with
  | nil => rfl
  | cons new rest ih =>
    have hd := upDecide_eq env peer (hel new (List.mem_cons_self ..))
    rw [upUpdatesLoop, selectRegular, upProcessPrefix, hd]
    cases upDecision env peer new with
    | excluded => rfl
    | filtered =>
      simp only [bind, Except.bind]
      by_cases hall : peer.flags.evaluateAll = true
      · rw [if_pos hall, if_pos hall]
        exact ih fun x hx => hel x (List.mem_cons_of_mem _ hx)
      · rw [if_neg hall, if_neg hall, if_pos rfl]
    | announce a => simp [bind, Except.bind, adjoutPrefixUpdate, he, hne]

/-- `up_generate_updates` outside of a dump for a peer whose first entry has another path id than
    0: an update hits the consistency check, a withdraw takes out that entry. -/
theorem upGenerateUpdates_stray (env : UpEnv) (peer : OutParams) (pt : PtEntry) (h : out.Wf)
    {chain : List Prefix}
    (hel : ∀ x ∈ chain, prefixEligible x) (hmode : mode ≠ .sync) {e : ℕ × AdjoutAttr}
    (he : e ∈ (adjoutEntries peer.conf.id out.adjout).head?) (hne : e.1 ≠ 0) :
    (selectRegular env peer chain ≠ none ∧
      upGenerateUpdates env peer pt chain mode out = .error .kingBula) ∨
    (selectRegular env peer chain = none ∧ ∃ out',
      upGenerateUpdates env peer pt chain mode out = .ok out' ∧
      OutSet peer.conf.id pt e.1 none true out out') := by
  have hhd := adjoutPrefixes_head (q := peer.conf.id) h.adjout
  rw [Option.mem_def.mp he, Option.map_some, Option.map_eq_some_iff] at hhd
  obtain ⟨c, hc, hid⟩ := hhd
  obtain ⟨hget, hq⟩ := h.adjout.adjoutPrefixes_get (List.mem_of_head? hc)
  have hflush : upFlushCached peer.conf.id pt mode out = .ok (some c.1, out) := by
    unfold upFlushCached
    rw [if_neg fun hs => hmode hs.1, hc]
    rfl
  have hloop := upUpdatesLoop_stray env peer mode hget (hid ▸ hne) hel
  unfold upGenerateUpdates
  simp only [hflush, hloop, bind, Except.bind]
  split_ifs with hsel
  · right
    obtain ⟨out', hrun, hset⟩ := adjoutPrefixWithdraw_spec h pt (decide (mode = .sync)) hget hq
    refine ⟨hsel, out', by simpa [withdrawEntry] using hrun, ?_⟩
    rw [hid] at hset
    simpa [hmode] using hset
  · exact Or.inl ⟨hsel, rfl⟩

/-! ## The default route -/

/-- The first entry of a peer that has no path ids. -/
theorem isEntry_first {q : PeerId} (h : out.Wf)
    (hids : ∀ e ∈ adjoutEntries q out.adjout, e.1 = 0) :
    IsEntry q 0 (adjoutPrefixFirst q out.adjout) out := by
  unfold adjoutPrefixFirst
  cases hidx : out.adjout.findIdx? (fun p => decide (q ∈ p.peermap)) with
  | none =>
    refine Or.inl ⟨rfl, ?_⟩
    rw [adjoutView_eq_none_iff]
    intro e he
    rw [adjoutEntries_eq] at he
    obtain ⟨x, hx, hentry⟩ := List.mem_filterMap.mp he
    have hnot := List.findIdx?_eq_none_iff.mp hidx x hx
    rw [AdjoutPrefix.entry_none (by simpa using hnot)] at hentry
    cases hentry
  | some i =>
    obtain ⟨hlt, hq, _⟩ := List.findIdx?_eq_some_iff_getElem.mp hidx
    have hq : q ∈ out.adjout[i].peermap := by simpa using hq
    refine Or.inr ⟨i, out.adjout[i], rfl, List.getElem?_eq_getElem hlt, ?_, hq⟩
    obtain ⟨a, ha⟩ := h.adjout.exists_attrs (List.getElem_mem hlt) hq
    have hmem : (out.adjout[i].pathIdTx, a) ∈ adjoutEntries q out.adjout := by
      rw [adjoutEntries_eq]
      exact List.mem_filterMap.mpr ⟨_, List.getElem_mem hlt, AdjoutPrefix.entry_some hq ha⟩
    exact hids _ hmem

/-- `up_generate_default` for a peer that has no path ids. -/
theorem upGenerateDefault_spec (env : UpEnv) (peer : OutParams) (aid : Aid) (h : out.Wf)
    (hids : ∀ e ∈ adjoutEntries peer.conf.id out.adjout, e.1 = 0) :
    ((peer.capa.mp aid = true → upDecideDefault env peer aid = none) ∧
      upGenerateDefault env peer aid out = .ok out) ∨
    ∃ a out₁, peer.capa.mp aid = true ∧ upDecideDefault env peer aid = some a ∧
      OutSet peer.conf.id (defaultPt aid) 0 (some a) true out out₁ ∧
      (upGenerateDefault env peer aid out = .ok out₁ ∨
        upGenerateDefault env peer aid out = .ok { out₁ with state := .err } ∧
          peer.conf.maxOutPrefix ≠ 0) := by
  unfold upGenerateDefault
  cases hmp : peer.capa.mp aid with
  | false => exact Or.inl ⟨nofun, rfl⟩
  | true =>
    cases hdec : upDecideDefault env peer aid with
    | none => exact Or.inl ⟨fun _ => rfl, rfl⟩
    | some a =>
      obtain ⟨out₁, hrun, hset⟩ := adjoutPrefixUpdate_spec h a (defaultPt aid) true
        (isEntry_first h hids)
      refine Or.inr ⟨a, out₁, rfl, rfl, by simpa using hset, ?_⟩
      simp only [Bool.not_true, Bool.false_eq_true, if_false, hrun, bind, Except.bind]
      rcases upCheckLimit_cases peer out₁ with hlim | ⟨hlim, hmax⟩
      · exact Or.inl (by rw [hlim])
      · exact Or.inr ⟨by rw [hlim], hmax⟩

end Bgpd.Rde
