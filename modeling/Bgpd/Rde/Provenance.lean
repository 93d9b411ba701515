import Bgpd.Rde.OutSpec
import Bgpd.Rde.RibSpec

/-!
# Where Paths and Entries Come From

The attributes of a path of a RIB are those it was added with: the decision process moves paths
around, and changes of nexthops and timestamps leave the attributes alone. The attributes of an
entry of an Adj-RIB-Out are those that one of the generators decided on for that peer, whoever
the entry is shared with.

Both facts are stated for an arbitrary property of attributes, and hold whatever state the RDE
is in.

## Main results

- `AllPaths`: what the changes of a list keep
- `PathsAre`, `RibKeeps`: properties of the attributes of all paths
- `EntriesAre`: properties of the attributes of all entries of a destination
- `upGenerate_are`, `upGenerateDefault_are`: what the generators leave
-/

namespace Bgpd.Rde

open Bgpd.Lib

/-! ## Paths of a list -/

/-- All paths of a list have a property. -/
def AllPaths (K : Prefix → Prop) (h : List Prefix) : Prop := ∀ p ∈ h, K p

section Paths

variable {K : Prefix → Prop} {c : DecideCtx} {h : List Prefix} {p new : Prefix}

theorem AllPaths.cons (hp : K p) (hh : AllPaths K h) : AllPaths K (p :: h) :=
  List.forall_mem_cons.mpr ⟨hp, hh⟩

theorem AllPaths.tailqRemove (hh : AllPaths K h) (q : Ptr) : AllPaths K (tailqRemove h q) :=
  fun p hp => hh p (List.mem_filter.mp hp).1

theorem AllPaths.insertAfter (hh : AllPaths K h) (hnew : K new) (q : Ptr) :
    AllPaths K (tailqInsertAfter h q new) := by
  induction h with
  | nil => exact hh
  | cons x h ih =>
    obtain ⟨hx, hrest⟩ := List.forall_mem_cons.mp hh
    rw [tailqInsertAfter]
    split_ifs
    · exact AllPaths.cons hx (AllPaths.cons hnew hrest)
    · exact AllPaths.cons hx (ih hrest)

theorem AllPaths.foldl {f : List Prefix → Prefix → List Prefix} {l : List Prefix}
    (hf : ∀ h x, AllPaths K h → K x → AllPaths K (f h x)) (hl : AllPaths K l)
    (hh : AllPaths K h) : AllPaths K (l.foldl f h) := by
  induction l generalizing h with
  | nil => exact hh
  | cons x l ih =>
    obtain ⟨hx, hrest⟩ := List.forall_mem_cons.mp hl
    exact ih hrest (hf h x hh hx)

/-- A property that does not depend on the place in the decision. -/
abbrev FreeOfMetric (K : Prefix → Prop) : Prop := ∀ p d, K p → K { p with dmetric := d }

variable (hK : FreeOfMetric K)
include hK

theorem AllPaths.setDmetric (hh : AllPaths K h) (pp np : Option Prefix) :
    AllPaths K (prefixSetDmetric c h pp np) := by
  cases np with
  | none => exact hh
  | some n =>
    intro p hp
    obtain ⟨x, hx, rfl⟩ := List.mem_map.mp hp
    by_cases hn : x.ptr = n.ptr
    · rw [if_pos hn]
      exact hK x _ (hh x hx)
    · rw [if_neg hn]
      exact hh x hx

/-- Both lists of the scan in `prefix_insert`. -/
def InsertScan.Are (K : Prefix → Prop) (st : InsertScan) : Prop :=
  AllPaths K st.h ∧ AllPaths K st.redo

theorem InsertScan.Are.fixup {st : InsertScan} (hst : st.Are K) (xp : Prefix) :
    (st.fixup c xp).Are K := by
  unfold InsertScan.fixup
  split_ifs
  · exact ⟨hst.1.setDmetric hK (tailqPrev st.h xp.ptr) (some xp), hst.2⟩
  · exact hst

theorem InsertScan.Are.scan {todo : List Prefix} {st : InsertScan} (htodo : AllPaths K todo)
    (hst : st.Are K) : (insertScan c new todo st).Are K := by
  induction todo generalizing st with
  | nil => exact hst
  | cons xp np ih =>
    obtain ⟨hxp, hnp⟩ := List.forall_mem_cons.mp htodo
    -- the insertion point and its lock are no lists
    have hlock : ∀ sel ins, InsertScan.Are K { st with selected := sel, insertp := ins } :=
      fun _ _ => hst
    rw [Rde.insertScan]
    dsimp only
    split_ifs
    · -- a MED inversion takes the path out
      refine ih hnp ⟨hst.1.tailqRemove _, fun p hp => ?_⟩
      rcases List.mem_append.mp hp with hp | hp
      · exact hst.2 p hp
      · obtain rfl := List.mem_singleton.mp hp
        exact hxp
    · exact (hlock _ _).fixup hK xp
    · exact hst.fixup hK xp
    · exact ih hnp ((hlock _ _).fixup hK xp)
    · exact ih hnp (hst.fixup hK xp)
    · exact ih hnp ((hlock _ _).fixup hK xp)
    · exact ih hnp ((hlock _ _).fixup hK xp)
    · exact ih hnp ((hlock _ _).fixup hK xp)
    · exact ih hnp (hst.fixup hK xp)

theorem AllPaths.insertFuel (fuel : ℕ) (hh : AllPaths K h) (hnew : K new) (ep : Option Prefix) :
    AllPaths K (prefixInsertFuel c fuel new ep h) := by
  induction fuel generalizing h new ep with
  | zero => exact hh
  | succ fuel ih =>
    have hstart : AllPaths K (scanStart h ep) := by
      cases ep with
      | none => exact hh
      | some e => exact fun p hp => hh p ((List.dropWhile_sublist _).mem hp)
    have hst : InsertScan.Are K { h := h, insertp := ep } :=
      ⟨hh, fun p hp => absurd hp List.not_mem_nil⟩
    obtain ⟨hscan, hredo⟩ := InsertScan.Are.scan (c := c) hK hstart hst
    rw [prefixInsertFuel]
    refine AllPaths.foldl (fun h x hh hx => ih hh hx _) hredo ?_
    refine AllPaths.setDmetric hK (AllPaths.setDmetric hK ?_ _ _) _ _
    unfold insertAtPoint
    split
    · exact AllPaths.cons hnew hscan
    · exact hscan.insertAfter hnew _

theorem AllPaths.prefixInsert (hh : AllPaths K h) (hnew : K new) (ep : Option Prefix) :
    AllPaths K (prefixInsert c new ep h) := hh.insertFuel hK _ hnew ep

theorem AllPaths.removeScan (old : Prefix) {todo : List Prefix} (st : RemoveScan)
    (htodo : AllPaths K todo) (hh : AllPaths K st.h) (hredo : AllPaths K st.redo) :
    AllPaths K (removeScan c old todo st).h ∧ AllPaths K (removeScan c old todo st).redo := by
  induction todo generalizing st with
  | nil => exact ⟨hh, hredo⟩
  | cons xp np ih =>
    obtain ⟨hxp, hnp⟩ := List.forall_mem_cons.mp htodo
    rw [Rde.removeScan]
    dsimp only
    split_ifs
    · refine ih _ hnp (hh.tailqRemove _) fun p hp => ?_
      rcases List.mem_append.mp hp with hp | hp
      · exact hredo p hp
      · obtain rfl := List.mem_singleton.mp hp
        exact hxp
    · exact ⟨hh.setDmetric hK (tailqPrev st.h xp.ptr) (some xp), hredo⟩
    · exact ⟨hh, hredo⟩
    · exact ih _ hnp (hh.setDmetric hK (tailqPrev st.h xp.ptr) (some xp)) hredo
    · exact ih _ hnp hh hredo

theorem AllPaths.prefixRemove (hh : AllPaths K h) (old : Prefix) :
    AllPaths K (prefixRemove c old h) := by
  have hrem := hh.tailqRemove old.ptr
  have hnone : AllPaths K [] := fun p hp => absurd hp List.not_mem_nil
  have htail : AllPaths K ((h.dropWhile (fun x => x.ptr ≠ old.ptr)).drop 1) := fun p hp =>
    hh p ((List.dropWhile_sublist _).mem ((List.drop_sublist _ _).mem hp))
  unfold Rde.prefixRemove
  dsimp only
  split_ifs
  · obtain ⟨hscan, hredo⟩ := AllPaths.removeScan (c := c) hK old
      { h := Rde.tailqRemove h old.ptr } htail hrem hnone
    refine AllPaths.foldl (fun h x hh hx => hh.prefixInsert hK hx none) hredo ?_
    split
    · exact hscan.setDmetric hK _ _
    · exact hscan.setDmetric hK _ _
  · split
    · exact hrem.setDmetric hK _ _
    · exact hrem.setDmetric hK _ _

/-- `prefix_evaluate` -/
theorem AllPaths.prefixEvaluate {flags : RibFlags} {evaluateAll : Bool} {new old : Option Prefix}
    {ev : Evaluation} (hh : AllPaths K h) (hnew : ∀ n ∈ new, K n)
    (hev : prefixEvaluate c flags evaluateAll h new old = some ev) : AllPaths K ev.h := by
  unfold Rde.prefixEvaluate at hev
  split_ifs at hev
  · obtain rfl := Option.some.inj hev
    rcases old with _ | o <;> rcases new with _ | n
    · exact hh
    · exact AllPaths.cons (hK n _ (hnew n rfl)) hh
    · exact hh.tailqRemove o.ptr
    · exact AllPaths.cons (hK n _ (hnew n rfl)) (hh.tailqRemove o.ptr)
  · obtain rfl := Option.some.inj hev
    rw [evaluationReport_h]
    rcases old with _ | o <;> rcases new with _ | n
    · exact hh
    · exact hh.prefixInsert hK (hnew n rfl) none
    · exact hh.prefixRemove hK o
    · exact (hh.prefixRemove hK o).prefixInsert hK (hnew n rfl) none

/-- `prefix_evaluate_nexthop` -/
theorem AllPaths.evaluateNexthop {flags : RibFlags} {evaluateAll : Bool} (hh : AllPaths K h)
    (state oldstate : NexthopState)
    (hp : K { p with nhvalid := decide (state = NexthopState.reach) }) :
    AllPaths K (prefixEvaluateNexthop c flags evaluateAll h p state oldstate).h := by
  have hnew := (hh.prefixRemove (c := c) hK p).prefixInsert (c := c) hK hp none
  unfold prefixEvaluateNexthop
  split_ifs
  · exact hh
  · exact hh
  · exact hh
  · -- the path stays ineligible, or the change is reported
    dsimp only
    split_ifs
    all_goals first | exact hnew | (rw [evaluationReport_h]; exact hnew)

end Paths

/-- All paths have a destination and attributes with the property. -/
def PathsAre (K : PtEntry → RdeAspath → Prop) (h : List Prefix) : Prop := ∀ p ∈ h, K p.pt p.asp

/-! ## Paths of the RIBs -/

/-- The paths of a destination that have attributes with the property. -/
abbrev PathsFor (K : RdeAspath → Prop) (pt : PtEntry) (h : List Prefix) : Prop :=
  Rde.PathsAre (fun k asp => k = pt ∧ K asp) h

/-- All paths of all RIBs are listed with their destinations and have the property. -/
def RdeState.PathsAre (K : RdeAspath → Prop) (s : RdeState) : Prop :=
  ∀ rib pt, PathsFor K pt (s.entry rib pt).prefixH

/-- A change of the RIBs that keeps the property. Adj-RIB-Outs and the configuration of peers do
    not change. -/
structure RibKeeps (K : RdeAspath → Prop) (s s' : RdeState) : Prop where
  paths : s.PathsAre K → s'.PathsAre K
  adjout : s'.adjout = s.adjout
  params : ∀ q, (s'.peers q).toOutParams = (s.peers q).toOutParams

variable {K : RdeAspath → Prop} {cfg : RdeConfig} {s s₁ s' : RdeState} {rib : ℕ} {pt : PtEntry}
  {q : PeerId} {a : PathArgs}

namespace RibKeeps

theorem refl (s : RdeState) : RibKeeps K s s := ⟨id, rfl, fun _ => rfl⟩

theorem trans (h : RibKeeps K s s₁) (h' : RibKeeps K s₁ s') : RibKeeps K s s' where
  paths := h'.paths ∘ h.paths
  adjout := h'.adjout.trans h.adjout
  params q := (h'.params q).trans (h.params q)

theorem foldl {α : Type*} {f : RdeState → α → RdeState} (hf : ∀ s a, RibKeeps K s (f s a))
    (l : List α) (s : RdeState) : RibKeeps K s (l.foldl f s) := by
  induction l generalizing s with
  | nil => exact refl s
  | cons a l ih => exact (hf s a).trans (ih _)

/-- A new list for an entry. -/
theorem setEntry {re : RibEntry} (hre : s.PathsAre K → PathsFor K pt re.prefixH) :
    RibKeeps K s (s.setEntry rib pt re) := by
  refine ⟨fun hs r k => ?_, rfl, fun _ => rfl⟩
  rw [setEntry_entry]
  split_ifs with hk
  · rw [hk.2]
    exact hre hs
  · exact hs r k

theorem setPeer {peer : RdePeer} (hpeer : peer.toOutParams = (s.peers q).toOutParams) :
    RibKeeps K s (s.setPeer q peer) := by
  refine ⟨id, rfl, fun p => ?_⟩
  unfold RdeState.setPeer
  dsimp only
  split_ifs with hp
  · rw [hpeer, hp]
  · rfl

theorem applyEvaluation {ev : Evaluation} (hev : s.PathsAre K → PathsFor K pt ev.h) :
    RibKeeps K s (s.applyEvaluation rib pt ev) := by
  have hset : RibKeeps K s (s.setEntry rib pt ((s.entry rib pt).evaluated s.evalAll ev)) :=
    setEntry hev
  rcases applyEvaluation_eq (s := s) rib pt ev with ⟨heq, _⟩ | ⟨q, heq⟩
  · rw [heq]
    exact hset
  · rw [heq]
    exact hset.trans (setPeer rfl)

/-- A call of `prefix_evaluate`. -/
theorem evaluate {new old : Option Prefix} (hnew : s.PathsAre K → ∀ n ∈ new, n.pt = pt ∧ K n.asp) :
    RibKeeps K s (s.evaluate cfg rib pt new old) := by
  unfold RdeState.evaluate
  split
  · next ev hev =>
    exact applyEvaluation fun hs =>
      AllPaths.prefixEvaluate (fun _ _ => id) (hs rib pt) (hnew hs) hev
  · exact refl s

theorem nextPtr (s : RdeState) (n : Ptr) : RibKeeps K s { s with nextPtr := n } :=
  ⟨id, rfl, fun _ => rfl⟩

theorem addKey (s : RdeState) (pt : PtEntry) : RibKeeps K s (s.addKey pt) := by
  unfold RdeState.addKey
  split_ifs
  · exact refl s
  · exact ⟨id, rfl, fun _ => rfl⟩

theorem prefixDestroy (s : RdeState) (rib : ℕ) (pt : PtEntry) (p : Prefix) :
    RibKeeps K s (s.prefixDestroy cfg rib pt p) := evaluate fun _ _ hn => nomatch hn

/-- `prefix_update` -/
theorem prefixUpdate (hs : s.PathsAre K) (ha : K a.state.aspath)
    (hrun : s.prefixUpdate cfg a = .ok s') : RibKeeps K s s' := by
  unfold RdeState.prefixUpdate at hrun
  cases hget : s.prefixGet a.rib a.peer a.pathId a.pt with
  | none =>
    rw [hget] at hrun
    obtain rfl := Except.ok.inj hrun
    refine ((nextPtr s _).trans (addKey _ _)).trans (evaluate fun _ n hn => ?_)
    obtain rfl := Option.some.inj hn
    exact ⟨rfl, ha⟩
  | some p =>
    rw [hget] at hrun
    dsimp only at hrun
    have htouch : RibKeeps K s (s.touch a.rib a.pt p.ptr a.now) := by
      refine setEntry fun hs x hx => ?_
      obtain ⟨y, hy, rfl⟩ := List.mem_map.mp hx
      by_cases hptr : y.ptr = p.ptr
      · rw [if_pos hptr]
        exact hs a.rib a.pt y hy
      · rw [if_neg hptr]
        exact hs a.rib a.pt y hy
    split_ifs at hrun with hid hsame hflag
    · obtain rfl := Except.ok.inj hrun
      exact htouch
    · obtain rfl := Except.ok.inj hrun
      refine (htouch.trans (prefixDestroy _ _ _ _)).trans (evaluate fun _ n hn => ?_)
      obtain rfl := Option.some.inj hn
      -- the path that is put back was listed
      exact hs a.rib a.pt p (prefixGet_some hget).1
    · obtain rfl := Except.ok.inj hrun
      refine (nextPtr s _).trans (evaluate fun _ n hn => ?_)
      obtain rfl := Option.some.inj hn
      exact ⟨rfl, ha⟩

/-- `prefix_withdraw` -/
theorem prefixWithdraw (s : RdeState) (rib : ℕ) (peer : PeerId) (pathId : ℕ) (pt : PtEntry) :
    RibKeeps K s (s.prefixWithdraw cfg rib peer pathId pt) := by
  unfold RdeState.prefixWithdraw
  split
  · exact prefixDestroy ..
  · exact refl s

/-- `prefix_evaluate_nexthop` -/
theorem evaluateNexthop (s : RdeState) (rib : ℕ) (pt : PtEntry) (p : Ptr)
    (state oldstate : NexthopState) :
    RibKeeps K s (s.evaluateNexthop cfg rib pt p state oldstate) := by
  unfold RdeState.evaluateNexthop
  split
  · exact refl s
  · next p hfind =>
    exact applyEvaluation fun hs => AllPaths.evaluateNexthop (fun _ _ => id) (hs rib pt) _ _
      (hs rib pt p (List.mem_of_find?_eq_some hfind))

/-- `peer_flush` -/
theorem peerFlush (s : RdeState) (peer : PeerId) (aid : Option Aid) (staletime : Option ℕ) :
    RibKeeps K s (s.peerFlush cfg peer aid staletime) := by
  have hpath : ∀ (s : RdeState) (pt : PtEntry) (p : Prefix),
      RibKeeps K s (s.flushPath cfg peer pt p) := fun s pt p =>
    (foldl (fun s i => prefixWithdraw s i peer p.pathId pt) _ s).trans (prefixDestroy ..)
  have hentry : ∀ (s : RdeState) (pt : PtEntry),
      RibKeeps K s (s.flushEntry cfg peer staletime pt) := fun s pt =>
    foldl (fun s p => hpath s pt p) _ s
  exact (foldl hentry _ s).trans (setPeer rfl)

/-! ### Sessions -/

theorem setDumps (s : RdeState) (dumps : List RibContext) :
    RibKeeps K s { s with dumps := dumps } :=
  ⟨id, rfl, fun _ => rfl⟩

theorem dumpDone (s : RdeState) (q : PeerId) (aid : Aid) : RibKeeps K s (s.dumpDone q aid) :=
  setPeer rfl

theorem stopOutput (s : RdeState) (q : PeerId) : RibKeeps K s (s.stopOutput q) := by
  have hloop := foldl (K := K) (f := fun s ctx => s.dumpDone ctx.peer ctx.aid)
    (fun s ctx => dumpDone s ctx.peer ctx.aid) (s.dumps.filter (·.peer = q)) s
  have hflush : ∀ s : RdeState, RibKeeps K s (s.flushPending q) := fun s => setPeer rfl
  exact (hloop.trans (setDumps _ _)).trans (hflush _)

theorem peerDown (s : RdeState) (q : PeerId) : RibKeeps K s (s.peerDown cfg q) := by
  have hdown : RibKeeps K s (s.setDown q) := setPeer rfl
  exact (hdown.trans (stopOutput _ q)).trans (peerFlush _ q none none)

theorem peerStale (s : RdeState) (q : PeerId) (aid : Aid) (flushall : Bool) (now : ℕ) :
    RibKeeps K s (s.peerStale cfg q aid flushall now) := by
  have hstaler : RibKeeps K s (s.flushStaler cfg q aid) := by
    unfold RdeState.flushStaler
    split
    · exact peerFlush ..
    · exact refl s
  have hstale : ∀ s : RdeState, RibKeeps K s (s.setStale q aid now) := fun s => setPeer rfl
  have hstop := (hstaler.trans (hstale _)).trans (stopOutput _ q)
  unfold RdeState.peerStale
  dsimp only
  split_ifs
  · exact hstop.trans (peerFlush ..)
  · exact hstop

theorem sendMsg (s : RdeState) (q : PeerId) (aid : Aid) (pend : PendQueue) (msg : List UpdateMsg) :
    RibKeeps K s (s.sendMsg q aid pend msg) := setPeer rfl

theorem upDumpWithdraws (s : RdeState) (q : PeerId) (aid : Aid) (n : ℕ) :
    RibKeeps K s (s.upDumpWithdraws q aid n) := by
  unfold RdeState.upDumpWithdraws
  dsimp only
  split_ifs
  · exact sendMsg ..
  · exact refl s

theorem upDumpUpdate (s : RdeState) (q : PeerId) (aid : Aid) (n : ℕ) :
    RibKeeps K s (s.upDumpUpdate q aid n) := by
  unfold RdeState.upDumpUpdate
  dsimp only
  split
  · split
    · exact refl s
    · split
      · exact sendMsg ..
      · exact sendMsg ..
  · exact refl s

end RibKeeps

/-! ## What the generators read of peers -/

theorem setOut_params (out : Out) (p : PeerId) :
    ((s.setOut q pt out).peers p).toOutParams = (s.peers p).toOutParams := by
  unfold RdeState.setOut RdeState.setPeer
  dsimp only
  split_ifs with hp
  · rw [hp]
  · rfl

theorem peerGenerateUpdate_params {mode : EvalMode}
    (hrun : s.peerGenerateUpdate cfg rib pt mode q = .ok s') (p : PeerId) :
    (s'.peers p).toOutParams = (s.peers p).toOutParams := by
  unfold RdeState.peerGenerateUpdate at hrun
  dsimp only at hrun
  split_ifs at hrun
  · obtain ⟨out, -, rfl⟩ := except_map_ok hrun
    exact setOut_params out p
  · obtain rfl := Except.ok.inj hrun
    rfl

theorem flowspecDump_params {l : List PtEntry} (hrun : s.flowspecDump cfg q l = .ok s')
    (p : PeerId) : (s'.peers p).toOutParams = (s.peers p).toOutParams := by
  induction l generalizing s with
  | nil =>
    obtain rfl := Except.ok.inj hrun
    rfl
  | cons k l ih =>
    obtain ⟨s₁, hk, hrun⟩ := except_bind_ok hrun
    refine (ih hrun).trans ?_
    unfold RdeState.dumpUpcall at hk
    split at hk
    · obtain rfl := Except.ok.inj hk
      rfl
    · obtain ⟨s₂, hgen, hk⟩ := except_bind_ok hk
      obtain rfl := Except.ok.inj hk
      exact peerGenerateUpdate_params hgen p

/-- A dump changes nothing of that. -/
theorem peerDump_params {aid : Aid} (hrun : s.peerDump cfg q aid = .ok s') (p : PeerId) :
    (s'.peers p).toOutParams = (s.peers p).toOutParams := by
  have hthrottle : RibKeeps (fun _ => True) s (s.throttle q) := RibKeeps.setPeer rfl
  have hdone : ∀ s : RdeState, ((s.dumpDone q aid).peers p).toOutParams = (s.peers p).toOutParams :=
    fun s => (RibKeeps.dumpDone (K := fun _ => True) s q aid).params p
  refine Eq.trans ?_ (hthrottle.params p)
  unfold RdeState.peerDump at hrun
  dsimp only at hrun
  split at hrun
  · obtain rfl := Except.ok.inj hrun
    exact hdone _
  · obtain ⟨s₁, hdump, rfl⟩ := except_map_ok hrun
    obtain ⟨out, -, rfl⟩ := except_map_ok hdump
    rw [hdone, setOut_params]
    exact (RibKeeps.addKey (K := fun _ => True) _ _).params p
  · split_ifs at hrun
    · obtain ⟨s₁, hdump, rfl⟩ := except_map_ok hrun
      rw [hdone]
      exact flowspecDump_params hdump p
    · obtain rfl := Except.ok.inj hrun
      rfl

/-! ## Entries of a destination -/

/-- All entries have attributes that the property allows for the peer. -/
def EntriesAre (K : PeerId → AdjoutAttr → Prop) (arr : List AdjoutPrefix) : Prop :=
  ∀ e ∈ arr, ∀ q ∈ e.peermap, ∀ attrs ∈ e.attrs, K q attrs

section Entries

variable {K : PeerId → AdjoutAttr → Prop} {arr : List AdjoutPrefix} {peer : OutParams}
  {env : UpEnv} {mode : EvalMode} {attrs : AdjoutAttr} {out out' : Out} {chain : List Prefix}
  {q : PeerId} {pt : PtEntry} {p : Option ℕ} {id i : ℕ}

theorem EntriesAre.entries (h : EntriesAre K arr) {e : ℕ × AdjoutAttr}
    (he : e ∈ adjoutEntries q arr) : K q e.2 := by
  rw [adjoutEntries_eq] at he
  obtain ⟨x, hx, he⟩ := List.mem_filterMap.mp he
  unfold AdjoutPrefix.entry at he
  split_ifs at he with hq
  obtain ⟨attrs, hattrs, rfl⟩ := Option.map_eq_some_iff.mp he
  exact h x hx q hq attrs hattrs

theorem EntriesAre.collect (h : EntriesAre K arr) : EntriesAre K (adjoutPrefixCollect arr) :=
  fun e he => h e (List.mem_filter.mp he).1

/-- An element that is changed in place. -/
theorem EntriesAre.modify (h : EntriesAre K arr) {f : AdjoutPrefix → AdjoutPrefix}
    (hf : ∀ e, arr[i]? = some e → ∀ q ∈ (f e).peermap, ∀ attrs ∈ (f e).attrs, K q attrs) :
    EntriesAre K (arr.modify i f) := by
  intro e he
  obtain ⟨j, hj⟩ := List.mem_iff_getElem?.mp he
  rw [List.getElem?_modify] at hj
  obtain ⟨x, hx, rfl⟩ := Option.map_eq_some_iff.mp hj
  by_cases hij : i = j
  · rw [if_pos hij]
    exact hf x (hij ▸ hx)
  · rw [if_neg hij]
    exact h x (List.mem_of_getElem? hx)

theorem EntriesAre.unlink (h : EntriesAre K arr) (q : PeerId) (i : ℕ) :
    EntriesAre K (adjoutPrefixUnlink q i arr) := by
  refine h.modify fun e he q' hq' attrs hattrs => ?_
  refine h e (List.mem_of_getElem? he) q' (List.mem_filter.mp hq').1 attrs ?_
  unfold AdjoutPrefix.unlink at hattrs
  dsimp only at hattrs
  split_ifs at hattrs
  · cases hattrs
  · exact hattrs

theorem EntriesAre.alloc (h : EntriesAre K arr) {e : AdjoutPrefix}
    (he : ∀ q ∈ e.peermap, ∀ attrs ∈ e.attrs, K q attrs) :
    EntriesAre K (adjoutPrefixAlloc e arr) := by
  induction arr with
  | nil => exact List.forall_mem_singleton.mpr he
  | cons x arr ih =>
    obtain ⟨hx, hrest⟩ := List.forall_mem_cons.mp h
    rw [adjoutPrefixAlloc]
    split_ifs
    · exact List.forall_mem_cons.mpr ⟨he, h⟩
    · exact List.forall_mem_cons.mpr ⟨hx, ih hrest⟩

/-- An entry is shared only with peers that have the same attributes. -/
theorem EntriesAre.link (h : EntriesAre K arr) (hattrs : K q attrs) (id : ℕ) :
    EntriesAre K (adjoutPrefixLink q attrs id arr) := by
  unfold adjoutPrefixLink
  split
  · next i hi =>
    refine h.modify fun e he q' hq' attrs' hattrs' => ?_
    rcases mem_bitmapSet.mp hq' with rfl | hq'
    · obtain ⟨x, hx, _, hxattrs⟩ := adjoutPrefixWithAttrs_some hi
      obtain rfl : x = e := Option.some.inj (hx.symm.trans he)
      obtain rfl : attrs = attrs' := Option.some.inj (hxattrs.symm.trans hattrs')
      exact hattrs
    · exact h e (List.mem_of_getElem? he) q' hq' attrs' hattrs'
  · refine h.alloc fun q' hq' attrs' hattrs' => ?_
    obtain rfl := List.mem_singleton.mp hq'
    obtain rfl := Option.some.inj hattrs'
    exact hattrs

theorem adjoutPrefixUpdate_are {forceSend : Bool} (h : EntriesAre K out.adjout) (hattrs : K q attrs)
    (hrun : adjoutPrefixUpdate p q attrs pt id forceSend out = .ok out') :
    EntriesAre K out'.adjout := by
  unfold adjoutPrefixUpdate at hrun
  cases p with
  | none =>
    obtain rfl := Except.ok.inj hrun
    rw [Out.link, Out.pendAdd_adjout]
    exact h.link hattrs id
  | some i =>
    dsimp only at hrun
    split at hrun
    · cases hrun
    · split_ifs at hrun
      · obtain rfl := Except.ok.inj hrun
        rw [Out.pendAdd_adjout]
        exact h
      · obtain rfl := Except.ok.inj hrun
        exact h
      · obtain rfl := Except.ok.inj hrun
        rw [Out.link, Out.pendAdd_adjout]
        exact (h.unlink q i).link hattrs id

theorem adjoutPrefixWithdraw_are {skipSend : Bool} (h : EntriesAre K out.adjout)
    (hrun : adjoutPrefixWithdraw q pt i skipSend out = .ok out') : EntriesAre K out'.adjout := by
  unfold adjoutPrefixWithdraw at hrun
  split at hrun
  · cases hrun
  · dsimp only at hrun
    split_ifs at hrun
    all_goals obtain rfl := Except.ok.inj hrun
    · exact h.unlink q i
    · rw [Out.unlink, Out.pendAdd_adjout]
      exact h.unlink q i

theorem withdrawEntry_are {skipSend : Bool} (h : EntriesAre K out.adjout)
    (hrun : withdrawEntry q pt p skipSend out = .ok out') : EntriesAre K out'.adjout := by
  cases p with
  | none =>
    obtain rfl := Except.ok.inj hrun
    exact h
  | some i => exact adjoutPrefixWithdraw_are h hrun

theorem withdrawAll_are {skipSend : Bool} {l : List ℕ} (h : EntriesAre K out.adjout)
    (hrun : withdrawAll q pt skipSend l out = .ok out') : EntriesAre K out'.adjout := by
  induction l generalizing out with
  | nil =>
    obtain rfl := Except.ok.inj hrun
    exact h
  | cons i l ih =>
    obtain ⟨out₁, hout₁, hrun⟩ := except_bind_ok hrun
    exact ih (adjoutPrefixWithdraw_are h hout₁) hrun

theorem withdrawStale_are {skipSend : Bool} {l : List ℕ} (h : EntriesAre K out.adjout)
    (hrun : withdrawStale q pt skipSend l out = .ok out') : EntriesAre K out'.adjout := by
  induction l generalizing out with
  | nil =>
    obtain rfl := Except.ok.inj hrun
    exact h
  | cons i l ih =>
    rw [withdrawStale] at hrun
    split_ifs at hrun
    · exact ih h hrun
    · obtain ⟨out₁, hout₁, hrun⟩ := except_bind_ok hrun
      exact ih (withdrawEntry_are h hout₁) hrun

/-! ## The generators -/

/-- Whatever the peer is told about the path is allowed. -/
def Announces (K : PeerId → AdjoutAttr → Prop) (env : UpEnv) (peer : OutParams) (new : Prefix) :
    Prop :=
  ∀ attrs, upDecide env peer new = .ok (.announce attrs) → K peer.conf.id attrs

theorem upCheckLimit_adjout (peer : OutParams) (out : Out) :
    (upCheckLimit peer out).2.adjout = out.adjout := by
  unfold upCheckLimit
  split_ifs <;> rfl

theorem upProcessPrefix_are {new : Prefix} {p : Option (Option ℕ)} {st : UpState}
    (h : EntriesAre K out.adjout) (hnew : Announces K env peer new)
    (hrun : upProcessPrefix env peer new p mode out = .ok (st, out')) :
    EntriesAre K out'.adjout := by
  obtain ⟨d, hd, hrun⟩ := except_bind_ok hrun
  cases d with
  | filtered =>
    obtain ⟨-, rfl⟩ := Prod.mk.inj (Except.ok.inj hrun)
    exact h
  | excluded =>
    obtain ⟨-, rfl⟩ := Prod.mk.inj (Except.ok.inj hrun)
    exact h
  | announce attrs =>
    have hattrs := hnew attrs hd
    cases p with
    | none =>
      obtain ⟨out₁, hout₁, hrun⟩ := except_bind_ok hrun
      have heq : out' = (upCheckLimit peer out₁).2 := (congrArg Prod.snd (Except.ok.inj hrun)).symm
      rw [heq, upCheckLimit_adjout]
      exact adjoutPrefixUpdate_are h hattrs hout₁
    | some p =>
      obtain ⟨out₁, hout₁, hrun⟩ := except_bind_ok hrun
      have heq : out' = (upCheckLimit peer out₁).2 := (congrArg Prod.snd (Except.ok.inj hrun)).symm
      rw [heq, upCheckLimit_adjout]
      exact adjoutPrefixUpdate_are h hattrs hout₁

theorem upUpdatesLoop_are {done : Bool} (h : EntriesAre K out.adjout)
    (hchain : ∀ new ∈ chain, Announces K env peer new)
    (hrun : upUpdatesLoop env peer p mode chain out = .ok (done, out')) :
    EntriesAre K out'.adjout := by
  induction chain generalizing out with
  | nil =>
    obtain ⟨-, rfl⟩ := Prod.mk.inj (Except.ok.inj hrun)
    exact h
  | cons new chain ih =>
    obtain ⟨hnew, hchain⟩ := List.forall_mem_cons.mp hchain
    obtain ⟨⟨st, out₁⟩, hprocess, hrun⟩ := except_bind_ok hrun
    have h₁ := upProcessPrefix_are h hnew hprocess
    cases st with
    | filtered =>
      dsimp only at hrun
      split_ifs at hrun
      · exact ih h₁ hchain hrun
      · obtain ⟨-, rfl⟩ := Prod.mk.inj (Except.ok.inj hrun)
        exact h₁
    | _ =>
      obtain ⟨-, rfl⟩ := Prod.mk.inj (Except.ok.inj hrun)
      exact h₁

theorem upFlushCached_are (h : EntriesAre K out.adjout)
    (hrun : upFlushCached q pt mode out = .ok (p, out')) : EntriesAre K out'.adjout := by
  unfold upFlushCached at hrun
  dsimp only at hrun
  split_ifs at hrun
  · obtain ⟨out₁, hout₁, hrun⟩ := except_map_ok hrun
    obtain ⟨-, rfl⟩ := Prod.mk.inj hrun
    exact withdrawAll_are h hout₁
  · obtain ⟨-, rfl⟩ := Prod.mk.inj (Except.ok.inj hrun)
    exact h

theorem upGenerateUpdates_are (h : EntriesAre K out.adjout)
    (hchain : ∀ new ∈ chain, Announces K env peer new)
    (hrun : upGenerateUpdates env peer pt chain mode out = .ok out') :
    EntriesAre K out'.adjout := by
  obtain ⟨⟨p, out₁⟩, hflush, hrun⟩ := except_bind_ok hrun
  obtain ⟨⟨done, out₂⟩, hloop, hrun⟩ := except_bind_ok hrun
  have h₂ := upUpdatesLoop_are (upFlushCached_are h hflush) hchain hloop
  dsimp only at hrun
  split_ifs at hrun
  · obtain rfl := Except.ok.inj hrun
    exact h₂
  · exact withdrawEntry_are h₂ hrun

theorem upAddpathLoop_are {st st' : AddpathScan} {giveup : Bool} (h : EntriesAre K out.adjout)
    (hchain : ∀ new ∈ chain, Announces K env peer new)
    (hrun : upAddpathLoop env peer mode chain st out = .ok (giveup, st', out')) :
    EntriesAre K out'.adjout := by
  induction chain generalizing out st with
  | nil =>
    obtain ⟨-, hrun⟩ := Prod.mk.inj (Except.ok.inj hrun)
    obtain ⟨-, rfl⟩ := Prod.mk.inj hrun
    exact h
  | cons new chain ih =>
    obtain ⟨hnew, hchain⟩ := List.forall_mem_cons.mp hchain
    obtain ⟨⟨extra, checkmode⟩, -, hrun⟩ := except_bind_ok hrun
    dsimp only at hrun
    split_ifs at hrun
    · obtain ⟨-, hrun⟩ := Prod.mk.inj (Except.ok.inj hrun)
      obtain ⟨-, rfl⟩ := Prod.mk.inj hrun
      exact h
    · obtain ⟨⟨up, out₁⟩, hprocess, hrun⟩ := except_bind_ok hrun
      have h₁ := upProcessPrefix_are h hnew hprocess
      cases up with
      | errLimit =>
        obtain ⟨-, hrun⟩ := Prod.mk.inj (Except.ok.inj hrun)
        obtain ⟨-, rfl⟩ := Prod.mk.inj hrun
        exact h₁
      | _ => exact ih h₁ hchain hrun

theorem upGenerateAddpath_are (h : EntriesAre K out.adjout)
    (hchain : ∀ new ∈ chain, Announces K env peer new)
    (hrun : upGenerateAddpath env peer pt chain mode out = .ok out') :
    EntriesAre K out'.adjout := by
  unfold upGenerateAddpath at hrun
  dsimp only at hrun
  split_ifs at hrun
  obtain ⟨⟨giveup, st, out₁⟩, hloop, hrun⟩ := except_bind_ok hrun
  have h₁ := upAddpathLoop_are h hchain hloop
  dsimp only at hrun
  split_ifs at hrun
  · obtain rfl := Except.ok.inj hrun
    exact h₁
  · exact withdrawStale_are h₁ hrun

/-- The add-path loop leaves only entries that stem from the list. -/
theorem upAddpathAllLoop_are {pq : List (ℕ × Option Prefix)} (h : EntriesAre K out.adjout)
    (hpq : ∀ e ∈ pq, ∀ new ∈ e.2, Announces K env peer new)
    (hrun : upAddpathAllLoop env peer pt mode pq out = .ok out') : EntriesAre K out'.adjout := by
  induction pq generalizing out with
  | nil =>
    obtain rfl := Except.ok.inj hrun
    exact h
  | cons e pq ih =>
    obtain ⟨he, hrest⟩ := List.forall_mem_cons.mp hpq
    obtain ⟨pathIdTx, new⟩ := e
    obtain ⟨⟨st, out₁⟩, hqueued, hrun⟩ := except_bind_ok hrun
    have h₁ : EntriesAre K out₁.adjout := by
      unfold upProcessQueued at hqueued
      split at hqueued
      · next new' hnew =>
        exact upProcessPrefix_are h (he new' (Option.filter_eq_some_iff.mp hnew).1) hqueued
      · obtain ⟨-, rfl⟩ := Prod.mk.inj (Except.ok.inj hqueued)
        exact h
    have hwithdraw : ∀ out₂, withdrawEntry peer.conf.id pt
        (adjoutPrefixGet peer.conf.id pathIdTx out₁.adjout) (mode = .sync) out₁ = .ok out₂ →
        upAddpathAllLoop env peer pt mode pq out₂ = .ok out' → EntriesAre K out'.adjout :=
      fun out₂ hout₂ hrun => ih (withdrawEntry_are h₁ hout₂) hrest hrun
    cases st with
    | ok => exact ih h₁ hrest hrun
    | errLimit =>
      obtain rfl := Except.ok.inj hrun
      exact h₁
    | filtered =>
      obtain ⟨out₂, hout₂, hrun⟩ := except_bind_ok hrun
      exact hwithdraw out₂ hout₂ hrun
    | excluded =>
      obtain ⟨out₂, hout₂, hrun⟩ := except_bind_ok hrun
      exact hwithdraw out₂ hout₂ hrun

/-- What the generator of a peer leaves. -/
theorem upGenerate_are {pq : List (ℕ × Option Prefix)} (h : EntriesAre K out.adjout)
    (hchain : ∀ new ∈ chain, Announces K env peer new)
    (hpq : ∀ e ∈ pq, ∀ new ∈ e.2, Announces K env peer new)
    (hrun : upGenerate env peer pt chain pq mode out = .ok out') : EntriesAre K out'.adjout := by
  unfold upGenerate upGenerateAddpathAll at hrun
  split_ifs at hrun
  · exact upGenerateAddpath_are h hchain hrun
  · exact upAddpathAllLoop_are h hpq hrun
  · exact upGenerateAddpath_are h hchain hrun
  · obtain rfl := Except.ok.inj hrun
    exact h
  · exact upGenerateUpdates_are h hchain hrun

/-- What `up_generate_default` leaves. -/
theorem upGenerateDefault_are {aid : Aid} (h : EntriesAre K out.adjout)
    (hdefault : peer.capa.mp aid = true → ∀ attrs, upDecideDefault env peer aid = some attrs →
      K peer.conf.id attrs)
    (hrun : upGenerateDefault env peer aid out = .ok out') : EntriesAre K out'.adjout := by
  unfold upGenerateDefault at hrun
  split_ifs at hrun with hmp
  · obtain rfl := Except.ok.inj hrun
    exact h
  · split at hrun
    · obtain rfl := Except.ok.inj hrun
      exact h
    · next attrs hattrs =>
      obtain ⟨out₁, hout₁, hrun⟩ := except_bind_ok hrun
      obtain rfl := Except.ok.inj hrun
      rw [upCheckLimit_adjout]
      exact adjoutPrefixUpdate_are h (hdefault (by simpa using hmp) attrs hattrs) hout₁

end Entries

end Bgpd.Rde
