import Bgpd.Rde.Types

/-!
# The Decision Process

Model of `rde_decide.c`: the comparison of two paths, and the insertion and removal of a
path in the list `prefix_h` of a RIB entry. The list is a tail queue of objects, so its
elements are found by address; `dmetric` is a field of the object and is updated in place.

## Layout

- `prefixEligible`, `prefixCmp`: the comparison, steps 1 to 13
- `tailqRemove`, `tailqInsertAfter`, ...: the queue macros
- `prefixInsert`, `prefixRemove`: the two list operations with their redo queues
- `prefixBest`: the selected path
- `prefixEvaluate`, `prefixEvaluateNexthop`: a change of the list and what it triggers
-/

namespace Bgpd.Rde

/-! ## Comparison -/

/-- The bits of `rde_decisionflags()` that the comparison reads. -/
structure DecisionFlags where
  /-- `BGPD_FLAG_DECISION_ROUTEAGE` -/
  routeage : Bool := false
  /-- `BGPD_FLAG_DECISION_MED_ALWAYS` -/
  medAlways : Bool := false
  deriving DecidableEq, Repr

/-- What the comparison reads of a peer. `conf.ebgp` is the truth value of
    `remote_as != local_as`, so it is a flag. -/
structure DecidePeer where
  ebgp : Bool := false
  remoteBgpid : ℕ := 0
  remoteAddr : BgpdAddr := {}
  deriving DecidableEq, Repr

/-- What the comparison reads besides the two paths. -/
structure DecideCtx where
  flags : DecisionFlags := {}
  localAs : ℕ := 0
  peer : PeerId → DecidePeer

/-- `prefix_eligible`: the path may be selected. -/
def prefixEligible (p : Prefix) : Bool :=
  !p.filtered &&
  (match p.aspath with
   | none => false
   | some a => !(a.flags.loop || a.flags.otcLeak || a.flags.parseErr)) &&
  p.nhvalid

/-- The attributes of a path; only read when the path is eligible. -/
def Prefix.asp (p : Prefix) : RdeAspath := p.aspath.getD {}

/-- Step 10: the BGP identifier, or the originator a route reflector recorded. -/
def DecideCtx.routerId (c : DecideCtx) (p : Prefix) : ℕ :=
  match attrOptget p.asp.others attrOriginatorId with
  | some a => be32 a.data
  | none => (c.peer p.peer).remoteBgpid

/-- Step 11: the length of the cluster list. -/
def clusterCnt (p : Prefix) : ℕ :=
  match attrOptget p.asp.others attrClusterList with
  | some a => a.data.length / 4
  | none => 0

/-- Steps 10 to 13 with their sign: `1` if `p1` wins, `-1` if `p2` wins. `0` stands for the
    two `fatalx` calls (a peer address of unknown family, or a complete tie). -/
def prefixCmpTie (c : DecideCtx) (p1 p2 : Prefix) : ℤ :=
  let a1 := (c.peer p1.peer).remoteAddr
  let a2 := (c.peer p2.peer).remoteAddr
  -- 10. lowest BGP Id wins, use ORIGINATOR_ID if present
  if c.routerId p1 < c.routerId p2 then 1
  else if c.routerId p2 < c.routerId p1 then -1
  -- 11. compare CLUSTER_LIST length, shorter is better
  else if clusterCnt p1 < clusterCnt p2 then 1
  else if clusterCnt p2 < clusterCnt p1 then -1
  -- 12. lowest peer address wins (IPv4 is better than IPv6)
  else if a1.aidVal < a2.aidVal then 1
  else if a2.aidVal < a1.aidVal then -1
  else if a1.aid = some .inet ∨ a1.aid = some .inet6 then
    if a1.addr < a2.addr then 1
    else if a2.addr < a1.addr then -1
    -- 13. lowest path identifier wins
    else if p1.pathId < p2.pathId then 1
    else if p2.pathId < p1.pathId then -1
    else 0
  else 0

/-- Steps 6 to 13, the part behind the MED check. The absolute value says how similar the
    paths are. -/
def prefixCmpTail (c : DecideCtx) (p1 p2 : Prefix) : ℤ :=
  let e1 := (c.peer p1.peer).ebgp
  let e2 := (c.peer p2.peer).ebgp
  -- 6. EBGP is cooler than IBGP
  if e1 ≠ e2 then
    if e1 then 2 else -2
  -- 7. local tie-breaker
  else if p2.asp.weight < p1.asp.weight then 3
  else if p1.asp.weight < p2.asp.weight then -3
  -- 9. older route wins but only if route-age evaluation is enabled
  else if c.flags.routeage ∧ p1.lastchange < p2.lastchange then 4
  else if c.flags.routeage ∧ p2.lastchange < p1.lastchange then -4
  else 4 * prefixCmpTie c p1 p2

/-- `prefix_cmp`: the result and `*testall`. The first argument is the new path, the second
    one that is already listed; `none` is `NULL`. -/
def prefixCmp (c : DecideCtx) : Option Prefix → Option Prefix → ℤ × ℕ
  | none, _ => (-1, 0)
  | some _, none => (1, 0)
  | some p1, some p2 =>
    -- 1. check if prefix is eligible a.k.a reachable
    if !prefixEligible p2 then (1, 0)
    else if !prefixEligible p1 then (-1, 0)
    -- 2. local preference of prefix, bigger is better
    else if p2.asp.lpref < p1.asp.lpref then (2, 0)
    else if p1.asp.lpref < p2.asp.lpref then (-2, 0)
    -- 3. aspath count, the shorter the better
    else if aspathCount p1.asp.aspath < aspathCount p2.asp.aspath then (2, 0)
    else if aspathCount p2.asp.aspath < aspathCount p1.asp.aspath then (-2, 0)
    -- 4. origin, the lower the better
    else if p1.asp.origin < p2.asp.origin then (2, 0)
    else if p2.asp.origin < p1.asp.origin then (-2, 0)
    -- 5. MED decision: only comparable between the same neighboring AS
    else
      let medAlways := c.flags.medAlways
      let sameAs := aspathNeighbor c.localAs p1.asp.aspath = aspathNeighbor c.localAs p2.asp.aspath
      if (medAlways ∨ sameAs) ∧ p1.asp.med < p2.asp.med then (2, if medAlways then 0 else 2)
      else if (medAlways ∨ sameAs) ∧ p2.asp.med < p1.asp.med then (-2, if medAlways then 0 else 2)
      else (prefixCmpTail c p1 p2, if medAlways then 0 else 1)

/-! ## The list of paths -/

/-- `TAILQ_REMOVE` -/
def tailqRemove (h : List Prefix) (q : Ptr) : List Prefix := h.filter (fun x => x.ptr ≠ q)

/-- `TAILQ_INSERT_AFTER` -/
def tailqInsertAfter (h : List Prefix) (q : Ptr) (new : Prefix) : List Prefix :=
  match h with
  | [] => []
  | x :: rest => if x.ptr = q then x :: new :: rest else x :: tailqInsertAfter rest q new

/-- `TAILQ_NEXT` -/
def tailqNext (h : List Prefix) (q : Ptr) : Option Prefix :=
  ((h.dropWhile (fun x => x.ptr ≠ q)).drop 1).head?

/-- `TAILQ_PREV` -/
def tailqPrev (h : List Prefix) (q : Ptr) : Option Prefix :=
  (h.takeWhile (fun x => x.ptr ≠ q)).getLast?

/-- `prefix_set_dmetric`: note in `np` how it compares with its predecessor `pp`. -/
def prefixSetDmetric (c : DecideCtx) (h : List Prefix) (pp np : Option Prefix) : List Prefix :=
  match np with
  | none => h
  | some n =>
    let d := match pp with
      | none => if prefixEligible n then dmetricBest else dmetricInvalid
      | some p => (prefixCmp c (some p) (some n)).1
    h.map (fun x => if x.ptr = n.ptr then { x with dmetric := d } else x)

/-! ## Insertion -/

/-- The variables of the scan in `prefix_insert`. -/
structure InsertScan where
  h : List Prefix
  insertp : Option Prefix
  selected : Bool := false
  removed : Bool := false
  redo : List Prefix := []

/-- If previous elements got removed, fix up the `dmetric` of the element that is now known
    to stay. -/
def InsertScan.fixup (c : DecideCtx) (st : InsertScan) (xp : Prefix) : InsertScan :=
  if st.removed then
    { st with h := prefixSetDmetric c st.h (tailqPrev st.h xp.ptr) (some xp), removed := false }
  else st

/-- The loop of `prefix_insert` over the elements from the entry point on. -/
def insertScan (c : DecideCtx) (new : Prefix) : List Prefix → InsertScan → InsertScan
  | [], st => st
  | xp :: np, st =>
    let (rv, testall) := prefixCmp c (some new) (some xp)
    if rv > 0 then
      if testall = 2 then
        -- MED inversion, take out prefix and put it onto the redo queue
        insertScan c new np { st with
          h := tailqRemove st.h xp.ptr, redo := st.redo ++ [xp], removed := true }
      else
        -- lock the insertion point if the scan has to go on
        let st := if testall = 1 then { st with selected := true } else st
        let st := st.fixup c xp
        if testall = 0 then st else insertScan c new np st
    else
      -- an actual MED priority inversion resets the lock
      let st := if testall = 2 then { st with selected := false } else st
      let st := if !st.selected then { st with insertp := some xp } else st
      insertScan c new np (st.fixup c xp)

/-- The elements the scan visits: from the entry point on, or all if `ep == NULL`. -/
def scanStart (h : List Prefix) (ep : Option Prefix) : List Prefix :=
  match ep with
  | none => h
  | some e => h.dropWhile (fun x => x.ptr ≠ e.ptr)

/-- `TAILQ_INSERT_HEAD` or `TAILQ_INSERT_AFTER`, whichever `insertp` asks for. -/
def insertAtPoint (h : List Prefix) (insertp : Option Prefix) (new : Prefix) : List Prefix :=
  match insertp with
  | none => new :: h
  | some q => tailqInsertAfter h q.ptr new

/-- `prefix_insert` with a bound on the recursion depth. -/
def prefixInsertFuel (c : DecideCtx) : ℕ → Prefix → Option Prefix → List Prefix → List Prefix
  | 0, _, _, h => h
  | fuel + 1, new, ep, h =>
    let st := insertScan c new (scanStart h ep) { h := h, insertp := ep }
    let h := insertAtPoint st.h st.insertp new
    let h := prefixSetDmetric c h st.insertp (some new)
    let h := prefixSetDmetric c h (some new) (tailqNext h new.ptr)
    -- fixup MED order again, all elements are < new
    st.redo.foldl (fun h xp => prefixInsertFuel c fuel xp (some new) h) h

/-- `prefix_insert`. Each nested call inserts a path with a larger MED than the one before,
    so the depth is bounded by the number of paths (`prefixInsert_eq`). -/
def prefixInsert (c : DecideCtx) (new : Prefix) (ep : Option Prefix) (h : List Prefix) :
    List Prefix :=
  prefixInsertFuel c (h.length + 1) new ep h

/-! ## Removal -/

/-- The variables of the scan in `prefix_remove`. -/
structure RemoveScan where
  h : List Prefix
  removed : Bool := false
  redo : List Prefix := []

/-- The loop of `prefix_remove` over the elements behind the removed one. -/
def removeScan (c : DecideCtx) (old : Prefix) : List Prefix → RemoveScan → RemoveScan
  | [], st => st
  | xp :: np, st =>
    -- only interested in the testall result
    let testall := (prefixCmp c (some old) (some xp)).2
    if testall = 2 then
      removeScan c old np { st with
        h := tailqRemove st.h xp.ptr, redo := st.redo ++ [xp], removed := true }
    else
      let st := if st.removed then
          { st with
            h := prefixSetDmetric c st.h (tailqPrev st.h xp.ptr) (some xp)
            removed := false }
        else st
      if testall = 0 then st else removeScan c old np st

/-- `prefix_remove` -/
def prefixRemove (c : DecideCtx) (old : Prefix) (h : List Prefix) : List Prefix :=
  let xp := tailqNext h old.ptr
  let pp := tailqPrev h old.ptr
  let tail := (h.dropWhile (fun x => x.ptr ≠ old.ptr)).drop 1
  let h := tailqRemove h old.ptr
  -- check if a MED inversion could be possible
  let st : RemoveScan :=
    if (prefixCmp c (some old) xp).2 > 0 then removeScan c old tail { h := h } else { h := h }
  let h := match pp with
    | some p => prefixSetDmetric c st.h (some p) (tailqNext st.h p.ptr)
    | none => prefixSetDmetric c st.h none st.h.head?
  -- fixup MED order again, reinsert prefixes from the start
  st.redo.foldl (fun h xp => prefixInsert c xp none h) h

/-! ## Selection -/

/-- `rib.flags` -/
structure RibFlags where
  /-- `F_RIB_NOEVALUATE` -/
  noevaluate : Bool := false
  /-- `F_RIB_NOFIB` -/
  nofib : Bool := false
  /-- `F_RIB_NOFIBSYNC` -/
  nofibsync : Bool := false
  deriving DecidableEq, Repr

/-- `prefix_best`: the first path if it is eligible. -/
def prefixBest (flags : RibFlags) (h : List Prefix) : Option Prefix :=
  if flags.noevaluate then none
  else h.head?.filter prefixEligible

/-- `enum eval_mode`; `EVAL_NONE` is `none : Option EvalMode`. -/
inductive EvalMode where
  | sync | reeval | default | all
  deriving DecidableEq, Repr

/-- The arguments of a call of `rde_enqueue_updates`. -/
structure Enqueue where
  peer : Option PeerId
  newpath : Option Prefix
  oldPathidTx : ℕ
  mode : EvalMode
  deriving DecidableEq, Repr

/-- What a change of the list does: the list it leaves, the two arguments of
    `rde_send_kroute` and the call of `rde_enqueue_updates`. -/
structure Evaluation where
  h : List Prefix
  kroute : Option (Option Prefix × Option Prefix) := none
  enqueue : Option Enqueue := none
  deriving DecidableEq, Repr

/-- Two variables hold the same address. -/
def samePrefix (p q : Option Prefix) : Bool := p.map (·.ptr) = q.map (·.ptr)

/-- The end of `prefix_evaluate` and `prefix_evaluate_nexthop`: report the change to the
    FIB and to the peers. `changed` says that the active prefix changed, `quiet` that
    nothing is passed on otherwise. -/
def evaluationReport (flags : RibFlags) (evaluateAll : Bool) (h : List Prefix)
    (newbest oldbest : Option Prefix) (changed quiet : Bool) (peer : Option PeerId)
    (new : Option Prefix) (oldPathidTx : ℕ) : Evaluation :=
  if changed then
    { h := h
      kroute := if flags.nofib then none else some (newbest, oldbest)
      enqueue := some ⟨peer, new, oldPathidTx, .default⟩ }
  -- with 'rde evaluate all' every update needs to be passed on
  else if evaluateAll && !quiet then
    { h := h, enqueue := some ⟨peer, new, oldPathidTx, .all⟩ }
  else { h := h }

/-- `prefix_evaluate`: replace `old` by `new`. `none` is the `fatalx` call for two `NULL`s. -/
def prefixEvaluate (c : DecideCtx) (flags : RibFlags) (evaluateAll : Bool) (h : List Prefix)
    (new old : Option Prefix) : Option Evaluation :=
  if old.isNone && new.isNone then none
  else if flags.noevaluate then
    -- decision process is turned off
    let h := match old with
      | some o => tailqRemove h o.ptr
      | none => h
    let h := match new with
      | some n => { n with dmetric := dmetricInvalid } :: h
      | none => h
    some { h := h }
  else
    let oldbest := prefixBest flags h
    let h := match old with
      | some o => prefixRemove c o h
      | none => h
    let h := match new with
      | some n => prefixInsert c n none h
      | none => h
    -- an ineligible new path counts as none
    let eligible := new.filter prefixEligible
    let old' := if eligible.isSome then none else old
    let oldPathidTx := (old'.map (·.pathIdTx)).getD 0
    let peer := (eligible.map (·.peer)).orElse fun _ => old'.map (·.peer)
    let newbest := prefixBest flags h
    let changed := !samePrefix oldbest newbest || (old'.isSome && samePrefix newbest old')
    -- no old path to remove and path is ineligible, skip rest
    let quiet := old'.isNone && eligible.isNone
    some (evaluationReport flags evaluateAll h newbest oldbest changed quiet peer eligible
      oldPathidTx)

/-- `enum nexthop_state` -/
inductive NexthopState where
  | lookup | unreach | reach | flapped
  deriving DecidableEq, Repr

/-- `prefix_evaluate_nexthop` for a listed path `p` whose nexthop has a new state or new
    properties. -/
def prefixEvaluateNexthop (c : DecideCtx) (flags : RibFlags) (evaluateAll : Bool)
    (h : List Prefix) (p : Prefix) (state oldstate : NexthopState) : Evaluation :=
  if flags.noevaluate then { h := h }
  else if oldstate = state then
    -- only the true nexthop may have changed, which does not change the decision
    if state = .reach && !flags.nofib && samePrefix (some p) (prefixBest flags h) then
      { h := h, kroute := some (some p, none) }
    else { h := h }
  else
    let oldbest := prefixBest flags h
    let h := prefixRemove c p h
    let new := { p with nhvalid := state = .reach }
    let h := prefixInsert c new none h
    let newbest := prefixBest flags h
    let eligible := (some new).filter prefixEligible
    let oldPathidTx := if eligible.isNone && prefixEligible p then p.pathIdTx else 0
    -- path was and still is ineligible, skip rest
    if oldPathidTx = 0 ∧ eligible.isNone then { h := h }
    else
      let changed := !samePrefix oldbest newbest || samePrefix newbest (some p)
      evaluationReport flags evaluateAll h newbest oldbest changed false (some p.peer) eligible
        oldPathidTx

end Bgpd.Rde
