import Bgpd.Rde.EvaluateSpec
import Bgpd.Rde.UpdateSpec

/-!
# What the Add-Path Generators Do

The selection of the paths that a peer with add-path is told about, and the proofs that
`up_generate_addpath` and `up_generate_addpath_all` bring the Adj-RIB-Out in line with it.

## Main results

- `selectAddpath`: what a peer with add-path is to be told
- `upGenerateAddpath_spec`: all entries but one with path id 0 follow the selection
- `upAddpathAllLoop_spec`: the queued path ids follow the selection
-/

namespace Bgpd.Rde

open Bgpd.Lib

variable {env : UpEnv} {peer : OutParams} {pt : PtEntry} {mode : EvalMode} {out out₁ out' : Out}

/-! ## The selection -/

/-- What a peer with add-path is told, from the counters of `up_generate_addpath` on. -/
def selectAddpath (env : UpEnv) (peer : OutParams) :
    List Prefix → AddpathScan → Except Fatal (List (ℕ × AdjoutAttr))
  | [], _ => .ok []
  | new :: rest, st => do
    let (extra, checkmode) ← addpathExtra peer.eval.mode st.checkmode new.dmetric
    let st := { st with checkmode := checkmode }
    if addpathLimit peer.eval extra st then .ok []
    else
      match upDecision env peer new with
      | .announce a => do
        let l ← selectAddpath env peer rest (st.done extra new.pathIdTx)
        .ok ((new.pathIdTx, a) :: l)
      | _ => selectAddpath env peer rest st

/-- Only paths of the chain are selected. -/
theorem selectAddpath_ids {chain : List Prefix} {st : AddpathScan} {l : List (ℕ × AdjoutAttr)}
    (h : selectAddpath env peer chain st = .ok l) :
    (l.map (·.1)).Sublist (chain.map (·.pathIdTx)) := by
  induction chain generalizing st l with
  | nil =>
    obtain rfl : [] = l := Except.ok.inj h
    exact List.Sublist.refl _
  | cons new rest ih =>
    rw [selectAddpath] at h
    cases hx : addpathExtra peer.eval.mode st.checkmode new.dmetric with
    | error e => simp [hx, bind, Except.bind] at h
    | ok ec =>
      simp only [hx, bind, Except.bind] at h
      set st₁ : AddpathScan := { st with checkmode := ec.2 } with hst₁
      by_cases hlim : addpathLimit peer.eval ec.1 st₁ = true
      -- the limit is reached: no more paths
      · rw [if_pos hlim] at h
        obtain rfl : [] = l := Except.ok.inj h
        exact List.nil_sublist _
      · rw [if_neg hlim] at h
        cases hdec : upDecision env peer new with
        -- a path that is not announced takes no part in the list
        | filtered =>
          rw [hdec] at h
          exact (ih h).cons _
        | excluded =>
          rw [hdec] at h
          exact (ih h).cons _
        | announce a =>
          rw [hdec] at h
          cases hrest : selectAddpath env peer rest (st₁.done ec.1 new.pathIdTx) with
          | error e => simp [hrest] at h
          | ok l' =>
            simp only [hrest, Except.ok.injEq] at h
            subst h
            exact (ih hrest).cons_cons _

/-! ## The generator -/

/-- The result of the loop of `up_generate_addpath` over paths with the given path ids: an
    error of the selection, or it gives up because of the outbound limit, or it has set the
    entries that were selected and marked their path ids as done. -/
inductive AddpathOutcome (peer : OutParams) (pt : PtEntry) (mode : EvalMode) (ids : List ℕ)
    (old : List ℕ) (out : Out) (sel : Except Fatal (List (ℕ × AdjoutAttr))) :
    Except Fatal (Bool × AddpathScan × Out) → Prop
  | error {e : Fatal} (hsel : sel = .error e) (hne : e ≠ .kingBula) :
      AddpathOutcome peer pt mode ids old out sel (.error e)
  | limit {st' : AddpathScan} {out' : Out} (frame : OutFrame peer.conf.id pt out out')
      (state : out'.state = .err) (max : peer.conf.maxOutPrefix ≠ 0)
      (view : ∀ id ∉ ids,
        adjoutView peer.conf.id out'.adjout id = adjoutView peer.conf.id out.adjout id) :
      AddpathOutcome peer pt mode ids old out sel (.ok (true, st', out'))
  | selected {l : List (ℕ × AdjoutAttr)} {st' : AddpathScan} {out' : Out} (hsel : sel = .ok l)
      (frame : OutFrame peer.conf.id pt out out') (state : out'.state = out.state)
      (marks : st'.ids = (l.map (·.1)).foldl (fun ids id => markDone id ids) old)
      (view : ∀ id, adjoutView peer.conf.id out'.adjout id =
        (l.lookup id).or (adjoutView peer.conf.id out.adjout id))
      (pending : out.state = .up → ∀ id, out'.pend.pending (pt, id) =
        if (l.lookup id).isSome ∧ told mode (adjoutView peer.conf.id out.adjout id) (l.lookup id)
        then some (l.lookup id) else out.pend.pending (pt, id)) :
      AddpathOutcome peer pt mode ids old out sel (.ok (false, st', out'))

namespace AddpathOutcome

variable {ids old : List ℕ} {id : ℕ} {sel : Except Fatal (List (ℕ × AdjoutAttr))}
  {r : Except Fatal (Bool × AddpathScan × Out)}

/-- No more paths are selected. -/
theorem stop (h : out.Wf) {st : AddpathScan} (hids : st.ids = old) :
    AddpathOutcome peer pt mode ids old out (.ok []) (.ok (false, st, out)) :=
  .selected rfl (OutFrame.refl h) rfl hids (fun _ => by simp) (fun _ _ => by simp)

/-- A path that is not announced changes nothing. -/
theorem skip (h : AddpathOutcome peer pt mode ids old out sel r) :
    AddpathOutcome peer pt mode (id :: ids) old out sel r := by
  cases h with
  | error hsel hne => exact .error hsel hne
  | limit frame state max view =>
    exact .limit frame state max fun id' hid => view id' fun h => hid (List.mem_cons_of_mem _ h)
  | selected hsel frame state marks view pending =>
    exact .selected hsel frame state marks view pending

/-- A path that is announced, and then the others. -/
theorem announce {a : AdjoutAttr} (hnot : id ∉ ids)
    (hset : OutSet peer.conf.id pt id (some a)
      (told mode (adjoutView peer.conf.id out.adjout id) (some a)) out out₁)
    (hids : ∀ l, sel = .ok l → (l.map (·.1)).Sublist ids)
    (h : AddpathOutcome peer pt mode ids (markDone id old) out₁ sel r) :
    AddpathOutcome peer pt mode (id :: ids) old out (sel.map ((id, a) :: ·)) r := by
  cases h with
  | error hsel hne => exact .error (by rw [hsel]; rfl) hne
  | limit frame state max view =>
    refine .limit (hset.toOutFrame.trans frame) state max fun id' hid => ?_
    obtain ⟨hne, hid⟩ := not_or.mp (mt List.mem_cons.mpr hid)
    rw [view id' hid, hset.view, if_neg hne]
  | @selected l st' out' hsel frame state marks view pending =>
    have hnone : l.lookup id = none := by
      apply lookup_eq_none
      intro x hx heq
      exact hnot ((hids l hsel).subset (List.mem_map.mpr ⟨x, hx, heq⟩))
    have hlookup : ∀ id', ((id, a) :: l).lookup id' = if id' = id then some a else l.lookup id' :=
      fun id' => lookup_middle (l := []) (by simp)
    refine .selected (l := (id, a) :: l) (by rw [hsel]; rfl) (hset.toOutFrame.trans frame)
      (state.trans hset.stays) marks (fun id' => ?_) (fun hup id' => ?_)
    · rw [view, hset.view, hlookup]
      by_cases hid : id' = id
      · simp [hid, hnone]
      · simp [hid]
    · rw [pending (hset.stays.trans hup), hset.view, hset.pending hup, hlookup]
      by_cases hid : id' = id
      · subst hid
        simp [hnone]
      · simp only [hid, false_and, if_false]

end AddpathOutcome

theorem addpathExtra_error {m : AddpathMode} {b : Bool} {d : ℤ} {e : Fatal}
    (h : addpathExtra m b d = .error e) : e ≠ .kingBula := by
  cases m with
  | none =>
    cases b with
    | false => cases h
    | true =>
      obtain rfl : Fatal.evalMode = e := Except.error.inj h
      decide
  | _ => cases b <;> cases h

/-- The loop of `up_generate_addpath` does what the selection says. -/
theorem upAddpathLoop_spec (env : UpEnv) (peer : OutParams) (mode : EvalMode) {chain : List Prefix}
    (hel : ∀ x ∈ chain, prefixEligible x) (hpt : ∀ x ∈ chain, x.pt = pt)
    (hnd : (chain.map (·.pathIdTx)).Nodup) (h : out.Wf) (st : AddpathScan) :
    AddpathOutcome peer pt mode (chain.map (·.pathIdTx)) st.ids out
      (selectAddpath env peer chain st)
      (upAddpathLoop env peer mode chain st out) := by
  induction chain generalizing out st with
  | nil => exact .stop h rfl
  | cons new rest ih =>
    have helr : ∀ x ∈ rest, prefixEligible x := fun x hx => hel x (List.mem_cons_of_mem _ hx)
    have hptr : ∀ x ∈ rest, x.pt = pt := fun x hx => hpt x (List.mem_cons_of_mem _ hx)
    have hnew : new.pt = pt := hpt new (List.mem_cons_self ..)
    obtain ⟨hnot, hndr⟩ := List.nodup_cons.mp hnd
    rw [upAddpathLoop, selectAddpath, List.map_cons]
    cases hx : addpathExtra peer.eval.mode st.checkmode new.dmetric with
    | error e => exact .error rfl (addpathExtra_error hx)
    | ok ec =>
      simp only [bind, Except.bind]
      set st₁ : AddpathScan := { st with checkmode := ec.2 } with hst₁
      by_cases hlim : addpathLimit peer.eval ec.1 st₁ = true
      -- the limit is reached: the rest of the chain is not looked at
      · rw [if_pos hlim, if_pos hlim]
        exact .stop h rfl
      · rw [if_neg hlim, if_neg hlim]
        rcases upProcessPrefix_cases env peer mode h (hel new (List.mem_cons_self ..))
          (show IsTarget peer.conf.id new none new.pathIdTx out from rfl) with
          ⟨hdec, hres⟩ | ⟨hdec, hres⟩ | ⟨a, out₁, hdec, hset, hres⟩
        -- filtered or excluded: nothing is sent for this path
        · rw [hdec, hres]
          exact (ih helr hptr hndr h st₁).skip
        · rw [hdec, hres]
          exact (ih helr hptr hndr h st₁).skip
        -- announced: its id leaves the marked ids and the scan goes on with it
        · rw [hnew, ← told_some] at hset
          rw [hdec]
          rcases hres with hres | ⟨hres, hmax⟩
          · rw [hres]
            exact (ih helr hptr hndr hset.wf (st₁.done ec.1 new.pathIdTx)).announce hnot hset
              fun l hl => selectAddpath_ids hl
          -- the neighbour's limit ends the session here
          · rw [hres]
            refine .limit hset.toOutFrame.err rfl hmax fun id hid => ?_
            have hne : id ≠ new.pathIdTx := fun heq => hid (heq ▸ List.mem_cons_self ..)
            show adjoutView peer.conf.id out₁.adjout id = _
            rw [hset.view, if_neg hne]

/-- The selection does not depend on the list of path ids. -/
theorem selectAddpath_congr {chain : List Prefix} (st : AddpathScan) (ids : List ℕ) :
    selectAddpath env peer chain { st with ids := ids } = selectAddpath env peer chain st := by
  induction chain generalizing st ids with
  | nil => rfl
  | cons new rest ih =>
    rw [selectAddpath, selectAddpath]
    cases addpathExtra peer.eval.mode st.checkmode new.dmetric with
    | error e => rfl
    | ok ec =>
      have hlim : addpathLimit peer.eval ec.1 { st with ids := ids, checkmode := ec.2 } =
          addpathLimit peer.eval ec.1 { st with checkmode := ec.2 } := rfl
      have hskip : selectAddpath env peer rest { st with ids := ids, checkmode := ec.2 } =
          selectAddpath env peer rest { st with checkmode := ec.2 } :=
        ih { st with checkmode := ec.2 } ids
      have hdone : selectAddpath env peer rest
            ({ st with ids := ids, checkmode := ec.2 }.done ec.1 new.pathIdTx) =
          selectAddpath env peer rest ({ st with checkmode := ec.2 }.done ec.1 new.pathIdTx) :=
        ih (AddpathScan.done { st with checkmode := ec.2 } ec.1 new.pathIdTx)
          (markDone new.pathIdTx ids)
      simp only [bind, Except.bind, hlim, hskip, hdone]

theorem filter_markDone {m : ℕ} (hm : m ≠ 0) (ids : List ℕ) :
    (markDone m ids).filter (· ≠ 0) = (ids.filter (· ≠ 0)).erase m := by
  induction ids with
  | nil => rfl
  | cons x ids ih =>
    rw [markDone]
    by_cases hx : x = m
    · subst hx
      simp [hm]
    · rw [if_neg hx, List.filter_cons, List.filter_cons, ih]
      by_cases h0 : x = 0
      · simp [h0]
      · simp [h0, List.erase_cons_tail, hx]

/-- What is not marked: the path ids found at the start that were not announced again. -/
theorem mem_marks {ids ms : List ℕ} (hnd : ids.Nodup) (hms : ∀ m ∈ ms, m ≠ 0) {id : ℕ}
    (hid : id ≠ 0) :
    id ∈ ms.foldl (fun ids id => markDone id ids) ids ↔ id ∈ ids ∧ id ∉ ms := by
  have hdiff : ∀ ids : List ℕ,
      (ms.foldl (fun ids id => markDone id ids) ids).filter (· ≠ 0) =
        (ids.filter (· ≠ 0)).diff ms := by
    induction ms with
    | nil => intro ids; simp
    | cons m ms ih =>
      intro ids
      rw [List.foldl_cons, ih fun x hx => hms x (List.mem_cons_of_mem _ hx),
        filter_markDone (hms m (List.mem_cons_self ..)), List.diff_cons]
  have hfilter : ∀ l : List ℕ, id ∈ l ↔ id ∈ l.filter (· ≠ 0) := by
    intro l
    simp [hid]
  rw [hfilter, hdiff, (hnd.filter _).mem_sdiff_iff, ← hfilter]

/-- Withdrawing what was not seen again. -/
theorem withdrawStale_spec (q : PeerId) (pt : PtEntry) (skipSend : Bool) (h : out.Wf)
    (ids : List ℕ) :
    ∃ out', withdrawStale q pt skipSend ids out = .ok out' ∧ OutFrame q pt out out' ∧
      out'.state = out.state ∧
      (∀ id, adjoutView q out'.adjout id =
        if id ≠ 0 ∧ id ∈ ids then none else adjoutView q out.adjout id) ∧
      (out.state = .up → ∀ id, out'.pend.pending (pt, id) =
        if (id ≠ 0 ∧ id ∈ ids) ∧ !skipSend && (adjoutView q out.adjout id).isSome then some none
        else out.pend.pending (pt, id)) := by
  induction ids generalizing out with
  | nil => exact ⟨out, rfl, OutFrame.refl h, rfl, fun _ => by simp, fun _ _ => by simp⟩
  | cons x ids ih =>
    rw [withdrawStale]
    by_cases hx : x = 0
    -- a cleared slot of the list
    · rw [if_pos hx]
      obtain ⟨out', hrun, hframe, hstate, hview, hpend⟩ := ih h
      have hiff : ∀ id, (id ≠ 0 ∧ id ∈ x :: ids) ↔ (id ≠ 0 ∧ id ∈ ids) := by
        intro id
        refine and_congr_right fun hid => ?_
        rw [List.mem_cons, or_iff_right (fun heq => hid (heq.trans hx))]
      exact ⟨out', hrun, hframe, hstate, by simpa only [hiff] using hview,
        by simpa only [hiff] using hpend⟩
    · rw [if_neg hx]
      -- the entry is taken out, and its withdrawal queued if it was there
      obtain ⟨out₁, hstep, hset⟩ := withdrawEntry_spec pt skipSend h (h.isEntry_get q x)
      obtain ⟨out', hrun, hframe, hstate, hview, hpend⟩ := ih hset.wf
      refine ⟨out', by simp only [hstep, bind, Except.bind, hrun],
        hset.toOutFrame.trans hframe, hstate.trans hset.stays, fun id => ?_, fun hup id => ?_⟩
      · rw [hview, hset.view]
        by_cases hid : id = x
        · subst hid
          simp [hx]
        · simp only [List.mem_cons, hid, false_or, if_false]
      · rw [hpend (hset.stays.trans hup), hset.pending hup, hset.view]
        by_cases hid : id = x
        · subst hid
          simp [hx]
        · simp only [List.mem_cons, hid, false_or, if_false, false_and]

/-- The selection as a map. -/
def selAddpath (env : UpEnv) (peer : OutParams) (chain : List Prefix) :
    Except Fatal (ℕ → Option AdjoutAttr) :=
  (selectAddpath env peer chain { ids := [] }).map fun l id => l.lookup id

/-- What the loop selected and the withdrawal of the rest make together. -/
theorem addpath_generated {q : PeerId} {l : List (ℕ × AdjoutAttr)} {marked : List ℕ}
    (hms : ∀ m ∈ l.map (·.1), m ≠ 0)
    (hstale : ∀ id ≠ 0, id ∈ marked ↔
      id ∈ (adjoutEntries q out.adjout).map (·.1) ∧ id ∉ l.map (·.1))
    (frame : OutFrame q pt out out₁) (state : out₁.state = out.state)
    (view : ∀ id, adjoutView q out₁.adjout id = (l.lookup id).or (adjoutView q out.adjout id))
    (pending : out.state = .up → ∀ id, out₁.pend.pending (pt, id) =
      if (l.lookup id).isSome ∧ told mode (adjoutView q out.adjout id) (l.lookup id)
      then some (l.lookup id) else out.pend.pending (pt, id))
    (frame' : OutFrame q pt out₁ out')
    (view' : ∀ id, adjoutView q out'.adjout id =
      if id ≠ 0 ∧ id ∈ marked then none else adjoutView q out₁.adjout id)
    (pending' : out₁.state = .up → ∀ id, out'.pend.pending (pt, id) =
      if (id ≠ 0 ∧ id ∈ marked) ∧ !decide (mode = .sync) && (adjoutView q out₁.adjout id).isSome
      then some none else out₁.pend.pending (pt, id)) :
    Generated q pt mode { id | id ≠ 0 } (fun id => l.lookup id) out out' := by
  have hnotin : ∀ id, l.lookup id = none → id ∉ l.map (·.1) := by
    intro id hnone hmem
    obtain ⟨x, hx, hid⟩ := List.mem_map.mp hmem
    exact ne_of_lookup_eq_none hnone x hx hid
  have hin : ∀ id a, l.lookup id = some a → id ∈ l.map (·.1) := fun id a ha =>
    List.mem_map.mpr ⟨(id, a), mem_of_lookup ha, rfl⟩
  -- an entry that is not marked is not there
  have habsent : ∀ id ≠ 0, l.lookup id = none → id ∉ marked →
      adjoutView q out.adjout id = none := by
    intro id hid hnone hnot
    rw [adjoutView_eq_none_iff]
    intro e he heq
    exact hnot ((hstale id hid).mpr ⟨List.mem_map.mpr ⟨e, he, heq⟩, hnotin id hnone⟩)
  -- id 0 is never in use
  have hzero : l.lookup 0 = none := by
    apply lookup_eq_none
    intro x hx
    exact hms x.1 (List.mem_map_of_mem hx)
  refine ⟨frame.trans frame', fun id hid => ?_, fun id hid => ?_, fun hup id hid => ?_,
    fun hup id hid => ?_⟩
  · rw [view', view]
    -- one value per path id: those that were selected, and those that are withdrawn
    cases ha : l.lookup id with
    | some a =>
      have hnot : id ∉ marked := fun hm => ((hstale id hid).mp hm).2 (hin id a ha)
      simp [hnot]
    | none =>
      by_cases hm : id ∈ marked
      · rw [if_pos ⟨hid, hm⟩]
      · rw [if_neg fun hc => hm hc.2]
        exact habsent id hid ha hm
  · obtain rfl : id = 0 := not_not.mp hid
    rw [view', view, hzero]
    simp
  -- the withdrawals queued last hide nothing of the selected paths
  · rw [pending' (state.trans hup), pending hup, view]
    cases ha : l.lookup id with
    | some a =>
      have hnot : id ∉ marked := fun hm => ((hstale id hid).mp hm).2 (hin id a ha)
      simp [hnot]
    | none =>
      rw [told_none]
      by_cases hm : id ∈ marked
      · have hid' : id ≠ 0 := hid
        simp [hm, hid']
      · simp [hm, habsent id hid ha hm]
  · obtain rfl : id = 0 := not_not.mp hid
    rw [pending' (state.trans hup), pending hup, hzero]
    simp

/-- `up_generate_addpath`: every entry but one with path id 0 follows the selection. -/
theorem upGenerateAddpath_spec (env : UpEnv) (peer : OutParams) (mode : EvalMode)
    {chain : List Prefix} (hel : ∀ x ∈ chain, prefixEligible x) (hpt : ∀ x ∈ chain, x.pt = pt)
    (hnd : (chain.map (·.pathIdTx)).Nodup) (hne : ∀ x ∈ chain, x.pathIdTx ≠ 0) (h : out.Wf) :
    GenOutcome peer pt mode { id | id ≠ 0 } { id | id ∈ chain.map (·.pathIdTx) }
      (selAddpath env peer chain) out (upGenerateAddpath env peer pt chain mode out) := by
  unfold upGenerateAddpath
  simp only
  rw [h.adjout.adjoutPrefixes_ids]
  set ids := (adjoutEntries peer.conf.id out.adjout).map (·.1) with hids
  have hselect : selectAddpath env peer chain { ids := ids } =
      selectAddpath env peer chain { ids := [] } := selectAddpath_congr { ids := [] } ids
  by_cases hlen : addpathPrefixListLen ≤ ids.length
  -- too many paths for the list of ids: `rde.c` gives up
  · rw [if_pos hlen]
    refine .error (by decide) (Or.inr ⟨rfl, ?_⟩)
    rwa [hids, List.length_map] at hlen
  · rw [if_neg hlen]
    -- the loop marks what it announces; the ids left over are withdrawn afterwards
    have hloop := upAddpathLoop_spec env peer mode hel hpt hnd h { ids := ids }
    revert hloop
    generalize upAddpathLoop env peer mode chain { ids := ids } out = r
    intro hloop
    cases hloop with
    | error hsel hking =>
      exact .error hking (Or.inl (by rw [selAddpath, ← hselect, hsel]; rfl))
    | limit frame state max view =>
      exact .limit frame state max fun id hid => Or.inr (view id hid)
    | @selected l st' out₁ hsel frame state marks view pending =>
      have hsub := selectAddpath_ids hsel
      have hms : ∀ m ∈ l.map (·.1), m ≠ 0 := by
        intro m hm
        obtain ⟨x, hx, rfl⟩ := List.mem_map.mp (hsub.subset hm)
        exact hne x hx
      have hstale : ∀ id ≠ 0, id ∈ st'.ids ↔ id ∈ ids ∧ id ∉ l.map (·.1) := by
        intro id hid
        rw [marks]
        exact mem_marks (h.adjout.nodup peer.conf.id) hms hid
      obtain ⟨out', hrun, hframe, hstate, hview, hpend⟩ :=
        withdrawStale_spec peer.conf.id pt (mode = .sync) frame.wf st'.ids
      simp only [bind, Except.bind, Bool.false_eq_true, if_false, hrun]
      refine .done (f := fun id => l.lookup id) (by rw [selAddpath, ← hselect, hsel]; rfl) ?_
        (hstate.trans state) fun id _ hid => ?_
      -- every path that stays was selected, so it is one of the chain
      · exact addpath_generated hms hstale frame state view pending hframe hview hpend
      · obtain ⟨a, ha⟩ := Option.ne_none_iff_exists'.mp hid
        exact hsub.subset (List.mem_map.mpr ⟨(id, a), mem_of_lookup ha, rfl⟩)

/-! ## The generator for all paths -/

/-- What the peer is told about the path of a queued change. -/
def selQueued (env : UpEnv) (peer : OutParams) (p : Option Prefix) : Option AdjoutAttr :=
  (p.filter prefixEligible).bind fun p => (upDecision env peer p).attrs

/-- One queued change: the entry follows the selection, and then the limit is checked. -/
theorem upProcessQueued_cases (env : UpEnv) (peer : OutParams) (mode : EvalMode)
    (h : out.Wf) {id : ℕ}
    {p : Option Prefix} (hp : ∀ x ∈ p, x.pathIdTx = id ∧ x.pt = pt) :
    (selQueued env peer p = none ∧
      (upProcessQueued env peer p mode out = .ok (.filtered, out) ∨
        upProcessQueued env peer p mode out = .ok (.excluded, out))) ∨
    ∃ a out₁, selQueued env peer p = some a ∧
      OutSet peer.conf.id pt id (some a)
        (told mode (adjoutView peer.conf.id out.adjout id) (some a)) out out₁ ∧
      (upProcessQueued env peer p mode out = .ok (.ok, out₁) ∨
        upProcessQueued env peer p mode out = .ok (.errLimit, { out₁ with state := .err }) ∧
          peer.conf.maxOutPrefix ≠ 0) := by
  unfold upProcessQueued selQueued
  cases hf : p.filter prefixEligible with
  | none => exact Or.inl ⟨rfl, Or.inl rfl⟩
  | some x =>
    obtain ⟨hx, hel⟩ := Option.filter_eq_some_iff.mp hf
    obtain ⟨rfl, rfl⟩ := hp x hx
    simp only [Option.bind_some]
    rcases upProcessPrefix_cases env peer mode h hel
      (show IsTarget peer.conf.id x none x.pathIdTx out from rfl) with
      ⟨hdec, hres⟩ | ⟨hdec, hres⟩ | ⟨a, out₁, hdec, hset, hres⟩
    · exact Or.inl ⟨by rw [hdec]; rfl, Or.inl hres⟩
    · exact Or.inl ⟨by rw [hdec]; rfl, Or.inr hres⟩
    · rw [← told_some] at hset
      exact Or.inr ⟨a, out₁, by rw [hdec]; rfl, hset, hres⟩

/-- Set one entry that is not touched again. -/
theorem Generated.cons {q : PeerId} {id : ℕ} {v : Option AdjoutAttr} {R : Set ℕ}
    {f g : ℕ → Option AdjoutAttr} (hid : id ∉ R)
    (hset : OutSet q pt id v (told mode (adjoutView q out.adjout id) v) out out₁)
    (hgen : Generated q pt mode R f out₁ out') (hg : g id = v) (hfg : ∀ id' ∈ R, g id' = f id') :
    Generated q pt mode (insert id R) g out out' where
  toOutFrame := hset.toOutFrame.trans hgen.toOutFrame
  view id' hmem := by
    rcases hmem with rfl | hmem
    · rw [hgen.viewRest _ hid, hset.view, if_pos rfl, hg]
    · rw [hgen.view id' hmem, hfg id' hmem]
  viewRest id' hmem := by
    obtain ⟨hne, hmem⟩ := not_or.mp hmem
    rw [hgen.viewRest id' hmem, hset.view, if_neg hne]
  pending hup id' hmem := by
    rcases hmem with rfl | hmem
    · rw [hgen.pendingRest (hset.stays.trans hup) _ hid, hset.pending hup, hg]
      simp
    · have hne : id' ≠ id := fun heq => hid (heq ▸ hmem)
      have hnot : ¬(id' = id ∧ told mode (adjoutView q out.adjout id) v = true) :=
        fun hc => hne hc.1
      rw [hgen.pending (hset.stays.trans hup) id' hmem, hset.pending hup, hset.view, if_neg hne,
        if_neg hnot, hfg id' hmem]
  pendingRest hup id' hmem := by
    obtain ⟨hne, hmem⟩ := not_or.mp hmem
    rw [hgen.pendingRest (hset.stays.trans hup) id' hmem, hset.pending hup,
      if_neg fun hc => hne hc.1]

/-- The selection for queued changes as a map. -/
def selPending (env : UpEnv) (peer : OutParams) (pq : List (ℕ × Option Prefix)) (id : ℕ) :
    Option AdjoutAttr :=
  (pq.lookup id).bind (selQueued env peer)

/-- One queued change and then the others. -/
theorem GenOutcome.queued {e : ℕ × Option Prefix} {pq : List (ℕ × Option Prefix)}
    (hnot : e.1 ∉ pq.map (·.1)) (hids : ∀ x ∈ e.2, x.pathIdTx = e.1)
    (hset : OutSet peer.conf.id pt e.1 (selQueued env peer e.2)
      (told mode (adjoutView peer.conf.id out.adjout e.1) (selQueued env peer e.2)) out out₁)
    (h : GenOutcome peer pt mode { id | id ∈ pq.map (·.1) }
      { id | ∃ e ∈ pq, ∃ x ∈ e.2, x.pathIdTx = id } (.ok (selPending env peer pq)) out₁
        (.ok out')) :
    GenOutcome peer pt mode { id | id ∈ (e :: pq).map (·.1) }
      { id | ∃ e' ∈ e :: pq, ∃ x ∈ e'.2, x.pathIdTx = id } (.ok (selPending env peer (e :: pq)))
      out (.ok out') := by
  have hlookup : ∀ id, (e :: pq).lookup id = if id = e.1 then some e.2 else pq.lookup id :=
    fun id => lookup_middle (l := []) (by simp)
  -- a path id that the change did not touch or only removed
  have hview : ∀ id, (¬∃ e' ∈ e :: pq, ∃ x ∈ e'.2, x.pathIdTx = id) →
      adjoutView peer.conf.id out₁.adjout id = none ∨
        adjoutView peer.conf.id out₁.adjout id = adjoutView peer.conf.id out.adjout id := by
    intro id hid
    rw [hset.view]
    split_ifs with heq
    · left
      cases he : e.2 with
      | none => rfl
      | some x =>
        have hx : x ∈ e.2 := he
        exact absurd ⟨e, List.mem_cons_self .., x, hx, (hids x hx).trans heq.symm⟩ hid
    · exact Or.inr rfl
  have htail : ∀ id, (¬∃ e' ∈ e :: pq, ∃ x ∈ e'.2, x.pathIdTx = id) →
      ¬∃ e' ∈ pq, ∃ x ∈ e'.2, x.pathIdTx = id := by
    rintro id hid ⟨e', he', hx⟩
    exact hid ⟨e', List.mem_cons_of_mem _ he', hx⟩
  cases h with
  | limit frame state max view =>
    refine .limit (hset.toOutFrame.trans frame) state max fun id hid => ?_
    rcases view id (htail id hid) with hnone | heq
    · exact Or.inl hnone
    · rw [heq]
      exact hview id hid
  | @done f _ hsel gen state hids' =>
    obtain rfl : selPending env peer pq = f := Except.ok.inj hsel
    have hset_eq : { id | id ∈ (e :: pq).map (·.1) } = insert e.1 { id | id ∈ pq.map (·.1) } := by
      ext id
      simp
    refine .done rfl ?_ (state.trans hset.stays) fun id hid hne => ?_
    · rw [hset_eq]
      refine Generated.cons hnot hset gen ?_ fun id' hid' => ?_
      · rw [selPending, hlookup, if_pos rfl, Option.bind_some]
      · have hne : id' ≠ e.1 := fun heq => hnot (heq ▸ hid')
        rw [selPending, hlookup, if_neg hne, selPending]
    · rw [selPending, hlookup] at hne
      split_ifs at hne with heq
      · rw [Option.bind_some] at hne
        cases he : e.2 with
        | none => exact absurd (by rw [he]; rfl) hne
        | some x =>
          have hx : x ∈ e.2 := he
          exact ⟨e, List.mem_cons_self .., x, hx, (hids x hx).trans heq.symm⟩
      · rw [hset_eq] at hid
        obtain ⟨e', he', hx⟩ := hids' id (hid.resolve_left heq) hne
        exact ⟨e', List.mem_cons_of_mem _ he', hx⟩

/-- The loop of `up_generate_addpath_all`: the queued path ids follow the selection. -/
theorem upAddpathAllLoop_spec (env : UpEnv) (peer : OutParams) (mode : EvalMode)
    {pq : List (ℕ × Option Prefix)} (hnd : (pq.map (·.1)).Nodup)
    (hpq : ∀ e ∈ pq, ∀ x ∈ e.2, x.pathIdTx = e.1 ∧ x.pt = pt) (h : out.Wf) :
    ∃ out', upAddpathAllLoop env peer pt mode pq out = .ok out' ∧
      GenOutcome peer pt mode { id | id ∈ pq.map (·.1) }
        { id | ∃ e ∈ pq, ∃ x ∈ e.2, x.pathIdTx = id } (.ok (selPending env peer pq)) out
        (.ok out') := by
  induction pq generalizing out with
  | nil =>
    refine ⟨out, rfl, .done rfl ⟨OutFrame.refl h, ?_, fun _ _ => rfl, ?_, fun _ _ _ => rfl⟩ rfl ?_⟩
    · simp
    · simp
    · simp
  | cons e pq ih =>
    obtain ⟨hnot, hndr⟩ := List.nodup_cons.mp hnd
    have hpqr : ∀ e' ∈ pq, ∀ x ∈ e'.2, x.pathIdTx = e'.1 ∧ x.pt = pt :=
      fun e' he' => hpq e' (List.mem_cons_of_mem _ he')
    have he := hpq e (List.mem_cons_self ..)
    have hids : ∀ x ∈ e.2, x.pathIdTx = e.1 := fun x hx => (he x hx).1
    rw [upAddpathAllLoop]
    rcases upProcessQueued_cases env peer mode h he with
      ⟨hsel, hres⟩ | ⟨a, out₁, hsel, hset, hres⟩
    · -- withdrawn or filtered
      obtain ⟨out₁, hstep, hset⟩ := withdrawEntry_spec pt (mode = .sync) h
        (h.isEntry_get peer.conf.id e.1)
      rw [← told_none, ← hsel] at hset
      obtain ⟨out', hrun, hgen⟩ := ih hndr hpqr hset.wf
      refine ⟨out', ?_, hgen.queued hnot hids hset⟩
      rcases hres with hres | hres <;> simp only [hres, bind, Except.bind, hstep, hrun]
    · rw [← hsel] at hset
      rcases hres with hres | ⟨hres, hmax⟩
      · obtain ⟨out', hrun, hgen⟩ := ih hndr hpqr hset.wf
        exact ⟨out', by simp only [hres, bind, Except.bind, hrun], hgen.queued hnot hids hset⟩
      · refine ⟨_, by simp only [hres, bind, Except.bind], .limit hset.toOutFrame.err rfl hmax ?_⟩
        intro id hid
        right
        have hne : id ≠ e.1 := by
          rintro rfl
          cases hx : e.2 with
          | none => rw [hx] at hsel; cases hsel
          | some x =>
            exact hid ⟨e, List.mem_cons_self .., x, hx, hids x hx⟩
        show adjoutView peer.conf.id out₁.adjout id = _
        rw [hset.view, if_neg hne]

/-! ## All paths -/

/-- With `add-path send all` every path that may be announced is. -/
theorem selectAddpath_all (hmode : peer.eval.mode = .all) (hmax : peer.eval.maxpaths = 0)
    (chain : List Prefix) (st : AddpathScan) (hst : st.checkmode = true) :
    selectAddpath env peer chain st =
      .ok (chain.filterMap fun p => (upDecision env peer p).attrs.map (p.pathIdTx, ·)) := by
  induction chain generalizing st with
  | nil => rfl
  | cons new rest ih =>
    have hx : addpathExtra peer.eval.mode st.checkmode new.dmetric = .ok (false, true) := by
      rw [hmode, hst]
      rfl
    have hlim : ∀ st', addpathLimit peer.eval false st' = false := by
      intro st'
      simp [addpathLimit, hmax]
    rw [selectAddpath, hx]
    simp only [bind, Except.bind, hlim, Bool.false_eq_true, if_false]
    cases hdec : upDecision env peer new with
    | announce a =>
      have hrest : selectAddpath env peer rest
          (AddpathScan.done { st with checkmode := true } false new.pathIdTx) = _ := ih _ rfl
      simp only [hrest]
      simp [hdec, UpDecision.attrs]
    | filtered =>
      have hrest : selectAddpath env peer rest { st with checkmode := true } = _ := ih _ rfl
      simp only [hrest]
      simp [hdec, UpDecision.attrs]
    | excluded =>
      have hrest : selectAddpath env peer rest { st with checkmode := true } = _ := ih _ rfl
      simp only [hrest]
      simp [hdec, UpDecision.attrs]

/-- Under an id stands the decision on the path with that id. -/
theorem lookup_all {chain : List Prefix} (hnd : (chain.map (·.pathIdTx)).Nodup) (id : ℕ) :
    (chain.filterMap fun p => (upDecision env peer p).attrs.map (p.pathIdTx, ·)).lookup id =
      (pathById chain id).bind fun p => (upDecision env peer p).attrs := by
  induction chain with
  | nil => rfl
  | cons new rest ih =>
    obtain ⟨hnot, hndr⟩ := List.nodup_cons.mp hnd
    specialize ih hndr
    unfold pathById at ih ⊢
    rw [List.filterMap_cons, List.find?_cons]
    by_cases hid : new.pathIdTx = id
    · subst hid
      have hnone : rest.find? (fun p => decide (p.pathIdTx = new.pathIdTx)) = none := by
        rw [List.find?_eq_none]
        intro p hp heq
        exact hnot (List.mem_map.mpr ⟨p, hp, by simpa using heq⟩)
      rw [hnone, Option.bind_none] at ih
      cases ha : (upDecision env peer new).attrs with
      | none => simp [ha, ih]
      | some a => simp [ha]
    · have hbeq : (id == new.pathIdTx) = false := by simpa using Ne.symm hid
      cases ha : (upDecision env peer new).attrs with
      | none => simp [ih, hid]
      | some a => simp [List.lookup_cons, hbeq, ih, hid]

/-- With `add-path send all` the selection for a path id depends on its path only. -/
theorem selAddpath_all (hmode : peer.eval.mode = .all) (hmax : peer.eval.maxpaths = 0)
    {chain : List Prefix} (hnd : (chain.map (·.pathIdTx)).Nodup) :
    selAddpath env peer chain =
      .ok fun id => (pathById chain id).bind fun p => (upDecision env peer p).attrs := by
  rw [selAddpath, selectAddpath_all hmode hmax chain _ rfl]
  show Except.ok _ = Except.ok _
  congr 1
  ext1 id
  exact lookup_all hnd id

end Bgpd.Rde
