import Bgpd.Rde.Update

/-!
# The RIBs and the State of the RDE

The state of the route decision engine and the functions of `rde_rib.c` that change a RIB:
`prefix_update`, `prefix_withdraw` and the flush of a peer. A RIB is a function from
destinations to RIB entries, where an entry that does not exist is the empty one. `keys`
lists the destinations in the order of the trees; walks of a tree skip empty entries, so that
one list does for all RIBs.

Timestamps and whether a nexthop is reachable come from outside and are arguments.

## Layout

- `RibEntry`, `RdePeer`, `RibContext`, `RdeState`: the state
- `rdeEnqueueUpdates`, `evaluate`: the only way a list of paths is changed
- `prefixUpdate`, `prefixWithdraw`, `peerFlush`
-/

namespace Bgpd.Rde

/-! ## State -/

/-- `struct rib_entry`. `pq` holds the path ids that changed with the address of the path,
    `pqMode` is `none` when the entry is not queued. -/
structure RibEntry where
  prefixH : List Prefix := []
  pq : List (ℕ × Option Ptr) := []
  pqMode : Option EvalMode := none
  deriving DecidableEq, Repr

/-- An UPDATE message: withdrawn prefixes, and prefixes announced with the attributes. -/
structure UpdateMsg where
  withdrawn : List (PtEntry × ℕ) := []
  attrs : Option AdjoutAttr := none
  nlri : List (PtEntry × ℕ) := []
  deriving DecidableEq, Repr

/-- `struct rde_peer`. `sent` records the UPDATE messages sent since the session came up. -/
structure RdePeer extends OutParams where
  state : PeerState := .none
  remoteBgpid : ℕ := 0
  ribPq : List (ℕ × PtEntry) := []
  pend : Aid → PendQueue := fun _ => {}
  prefixOutCnt : ℕ := 0
  staletime : Aid → Option ℕ := fun _ => none
  throttled : Bool := false
  sent : List UpdateMsg := []

/-- The two kinds of walks that a session starts. -/
inductive DumpKind where
  /-- `peer_dump`: over a Loc-RIB -/
  | dump
  /-- `peer_blast`: over the Adj-RIB-Out -/
  | blast
  deriving DecidableEq, Repr

/-- `struct rib_context`. `pos` is the element at which the walk paused, `ctx_re` or `ctx_pt`. -/
structure RibContext where
  kind : DumpKind
  peer : PeerId
  ribId : ℕ
  aid : Aid
  pos : Option PtEntry := none
  deriving DecidableEq, Repr

/-- What does not change unless the configuration is reloaded, with the parts of the RDE that
    are parameters of update generation. -/
structure RdeConfig where
  decision : DecisionFlags := {}
  localAs : ℕ := 0
  ribSize : ℕ := 2
  ribFlags : ℕ → RibFlags := fun i => { noevaluate := decide (i = 0) }
  peertable : List PeerId := []
  filterOut : ℕ → FilterPeer → FromPeer → PtEntry → FilterState → Option FilterState
  nexthop : BgpdAddr → NexthopInfo
  /-- `rib_init` creates the Adj-RIB-In with `F_RIB_NOEVALUATE`. -/
  adjIn : (ribFlags 0).noevaluate = true := by rfl
  nodup : peertable.Nodup := by decide

/-- The state of the RDE. `evalAll` is `rde_eval_all`, `nextPtr` the next address
    `prefix_alloc` returns. -/
structure RdeState where
  entry : ℕ → PtEntry → RibEntry := fun _ _ => {}
  keys : List PtEntry := []
  peers : PeerId → RdePeer
  adjout : PtEntry → List AdjoutPrefix := fun _ => []
  dumps : List RibContext := []
  evalAll : Bool := false
  nextPtr : Ptr := 0

variable (cfg : RdeConfig)

/-- What the decision process reads. -/
def RdeState.decideCtx (s : RdeState) : DecideCtx where
  flags := cfg.decision
  localAs := cfg.localAs
  peer q := ⟨(s.peers q).conf.ebgp, (s.peers q).remoteBgpid, (s.peers q).remoteAddr⟩

/-- What update generation reads. -/
def RdeState.upEnv (s : RdeState) : UpEnv where
  from_ q := ⟨(s.peers q).conf, (s.peers q).remoteAddr⟩
  filterOut := cfg.filterOut
  nexthop := cfg.nexthop

def RdeState.setEntry (s : RdeState) (rib : ℕ) (pt : PtEntry) (re : RibEntry) : RdeState :=
  { s with entry := fun r k => if r = rib ∧ k = pt then re else s.entry r k }

def RdeState.setPeer (s : RdeState) (q : PeerId) (peer : RdePeer) : RdeState :=
  { s with peers := fun p => if p = q then peer else s.peers p }

/-! ## Destinations -/

/-- `pt_prefix_cmp(a, b) <= 0` -/
def ptLe (a b : PtEntry) : Bool :=
  a.aid.val < b.aid.val ||
    (a.aid.val = b.aid.val &&
      (a.data < b.data || (a.data = b.data && a.prefixlen ≤ b.prefixlen)))

/-- Put a destination into the sorted list. -/
def insertKey (pt : PtEntry) : List PtEntry → List PtEntry
  | [] => [pt]
  | k :: rest => if ptLe pt k then pt :: k :: rest else k :: insertKey pt rest

/-- `pt_add` if `pt_get` does not find the destination. -/
def RdeState.addKey (s : RdeState) (pt : PtEntry) : RdeState :=
  if pt ∈ s.keys then s else { s with keys := insertKey pt s.keys }

/-! ## Changes of a list of paths -/

/-- `rib_pq_remove_entry` and `rib_pq_add_entry` -/
def pqAdd (pathIdTx : ℕ) (p : Option Ptr) (pq : List (ℕ × Option Ptr)) : List (ℕ × Option Ptr) :=
  pq.eraseP (fun e => e.1 = pathIdTx) ++ [(pathIdTx, p)]

/-- `rde_enqueue_updates` with `EVAL_DEFAULT` or `EVAL_ALL`, and `rib_pq_enqueue`. -/
def RdeState.rdeEnqueueUpdates (s : RdeState) (rib : ℕ) (pt : PtEntry) (q : Enqueue) : RdeState :=
  let re := s.entry rib pt
  let pathIdTx := match q.newpath with
    | some p => p.pathIdTx
    | none => q.oldPathidTx
  -- only store paths if add-path or 'rde evaluate all' is used
  let pq := if s.evalAll then pqAdd pathIdTx (q.newpath.map (·.ptr)) re.pq else re.pq
  -- don't downgrade pq_mode from EVAL_DEFAULT to EVAL_ALL
  let mode := if re.pqMode = some .default then re.pqMode else some q.mode
  let s' := s.setEntry rib pt { re with pq := pq, pqMode := mode }
  -- enqueue only once
  match re.pqMode, q.peer with
  | none, some peer =>
    s'.setPeer peer { s.peers peer with ribPq := (s.peers peer).ribPq ++ [(rib, pt)] }
  | _, _ => s'

/-- The list and the report of a change. -/
def RdeState.applyEvaluation (s : RdeState) (rib : ℕ) (pt : PtEntry) (ev : Evaluation) :
    RdeState :=
  let s := s.setEntry rib pt { s.entry rib pt with prefixH := ev.h }
  match ev.enqueue with
  | some q => s.rdeEnqueueUpdates rib pt q
  | none => s

/-- A call of `prefix_evaluate`, with at least one path. -/
def RdeState.evaluate (s : RdeState) (rib : ℕ) (pt : PtEntry) (new old : Option Prefix) :
    RdeState :=
  match prefixEvaluate (s.decideCtx cfg) (cfg.ribFlags rib) s.evalAll (s.entry rib pt).prefixH
      new old with
  | some ev => s.applyEvaluation rib pt ev
  | none => s

/-- `prefix_get` -/
def RdeState.prefixGet (s : RdeState) (rib : ℕ) (peer : PeerId) (pathId : ℕ) (pt : PtEntry) :
    Option Prefix :=
  (s.entry rib pt).prefixH.find? fun p => p.peer = peer ∧ p.pathId = pathId

/-- The arguments of `prefix_update`; `reach` says that the nexthop is `NEXTHOP_REACH`. -/
structure PathArgs where
  rib : ℕ
  peer : PeerId
  pathId : ℕ := 0
  pathIdTx : ℕ
  state : FilterState := {}
  filtered : Bool := false
  pt : PtEntry
  reach : Bool := true
  now : ℕ := 0
  deriving DecidableEq, Repr

/-- `prefix_alloc`, `prefix_link` and `nexthop_link`. -/
def RdeState.prefixLink (s : RdeState) (a : PathArgs) : Prefix where
  ptr := s.nextPtr
  pt := a.pt
  aspath := some a.state.aspath
  communities := a.state.communities
  peer := a.peer
  nexthop := a.state.nexthop
  lastchange := a.now
  pathId := a.pathId
  pathIdTx := a.pathIdTx
  filtered := a.filtered
  validationState := a.state.vstate
  nhflags := a.state.nhflags
  -- self-announced networks use nexthop NULL and are valid as well
  nhvalid := !(cfg.ribFlags a.rib).noevaluate && (a.state.nexthop.isNone || a.reach)

/-- `prefix_add` -/
def RdeState.prefixAdd (s : RdeState) (a : PathArgs) : RdeState :=
  let p := s.prefixLink cfg a
  let s := { s with nextPtr := s.nextPtr + 1 }.addKey a.pt
  s.evaluate cfg a.rib a.pt (some p) none

/-- `prefix_move` -/
def RdeState.prefixMove (s : RdeState) (a : PathArgs) (p : Prefix) : RdeState :=
  let np := s.prefixLink cfg a
  let s := { s with nextPtr := s.nextPtr + 1 }
  s.evaluate cfg a.rib a.pt (some np) (some p)

/-- A new timestamp for a listed path. -/
def RdeState.touch (s : RdeState) (rib : ℕ) (pt : PtEntry) (q : Ptr) (now : ℕ) : RdeState :=
  s.setEntry rib pt { s.entry rib pt with
    prefixH := (s.entry rib pt).prefixH.map fun x =>
      if x.ptr = q then { x with lastchange := now } else x }

/-- `prefix_update` -/
def RdeState.prefixUpdate (s : RdeState) (a : PathArgs) : Except Fatal RdeState :=
  match s.prefixGet a.rib a.peer a.pathId a.pt with
  | none => .ok (s.prefixAdd cfg a)
  | some p =>
    if a.pathIdTx ≠ p.pathIdTx then .error .pathIdMismatch
    else if p.nexthop = a.state.nexthop ∧ p.nhflags = a.state.nhflags ∧
        p.communities = a.state.communities ∧ p.aspath = some a.state.aspath then
      -- no change, update last change
      let s := s.touch a.rib a.pt p.ptr a.now
      let p := { p with lastchange := a.now }
      -- check if filtered flag or validation state changed
      if p.filtered = a.filtered ∧ p.validationState = a.state.vstate then .ok s
      else
        -- remove prefix from rib, adjust filtered flag and vstate, redo route decision
        let s := s.evaluate cfg a.rib a.pt none (some p)
        let p := { p with filtered := a.filtered, validationState := a.state.vstate }
        .ok (s.evaluate cfg a.rib a.pt (some p) none)
    else .ok (s.prefixMove cfg a p)

/-- `prefix_destroy` -/
def RdeState.prefixDestroy (s : RdeState) (rib : ℕ) (pt : PtEntry) (p : Prefix) : RdeState :=
  s.evaluate cfg rib pt none (some p)

/-- `prefix_get` and `prefix_destroy` if there is such a path, as `prefix_withdraw` does. -/
def RdeState.prefixWithdraw (s : RdeState) (rib : ℕ) (peer : PeerId) (pathId : ℕ) (pt : PtEntry) :
    RdeState :=
  match s.prefixGet rib peer pathId pt with
  | some p => s.prefixDestroy cfg rib pt p
  -- got a dummy withdrawn request
  | none => s

/-- `prefix_evaluate_nexthop` for the path at an address. -/
def RdeState.evaluateNexthop (s : RdeState) (rib : ℕ) (pt : PtEntry) (q : Ptr)
    (state oldstate : NexthopState) : RdeState :=
  match (s.entry rib pt).prefixH.find? (fun p => p.ptr = q) with
  | none => s
  | some p => s.applyEvaluation rib pt (prefixEvaluateNexthop (s.decideCtx cfg) (cfg.ribFlags rib)
      s.evalAll (s.entry rib pt).prefixH p state oldstate)

/-! ## Flushing a peer -/

/-- `RIB_ADJ_IN` -/
def ribAdjIn : ℕ := 0

/-- `RIB_LOC_START` -/
def ribLocStart : ℕ := 1

/-- The inner part of `peer_flush_upcall`: a path of the Adj-RIB-In and what became of it in
    the Loc-RIBs. -/
def RdeState.flushPath (s : RdeState) (peer : PeerId) (pt : PtEntry) (p : Prefix) : RdeState :=
  let s := (List.range' ribLocStart (cfg.ribSize - ribLocStart)).foldl
    (fun s i => s.prefixWithdraw cfg i peer p.pathId pt) s
  s.prefixDestroy cfg ribAdjIn pt p

/-- `peer_flush_upcall`: without a valid `staletime` all paths of the peer. -/
def RdeState.flushEntry (s : RdeState) (peer : PeerId) (staletime : Option ℕ) (pt : PtEntry) :
    RdeState :=
  ((s.entry ribAdjIn pt).prefixH.filter fun p =>
    p.peer = peer ∧ staletime.all fun t => p.lastchange ≤ t).foldl
      (fun s p => s.flushPath cfg peer pt p) s

/-- `peer_flush`; no `aid` is `AID_UNSPEC`. -/
def RdeState.peerFlush (s : RdeState) (peer : PeerId) (aid : Option Aid) (staletime : Option ℕ) :
    RdeState :=
  let s := (s.keys.filter fun k => aid.all (· = k.aid)).foldl
    (fun s pt => s.flushEntry cfg peer staletime pt) s
  -- every route is gone so reset staletime
  s.setPeer peer { s.peers peer with
    staletime := fun a => if aid.all (· = a) then none else (s.peers peer).staletime a }

end Bgpd.Rde
