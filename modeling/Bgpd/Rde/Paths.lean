import Bgpd.Lib.Run
import Bgpd.Rde.Rib

/-!
# The Paths of a Peer over its Sessions

Model of how the paths of the peers get into the Adj-RIB-In and the Loc-RIBs and out of them
again: `rde_update_update`, `rde_update_withdraw`, `pathid_assign` and the walks of a reload in
`rde.c`, the sessions of `rde_peer.c`, and `prefix_update` and `prefix_withdraw` of `rde_rib.c`
with all that they store of a path.

A session may be followed by another one with other capabilities, and the paths of the old one
can stay as stale paths. The order of the paths of a Loc-RIB is that of the decision process. None
of the functions here reads it, so that a list of a Loc-RIB says which paths there are and no more.
The clock, the random numbers, the validation states and the point at which a walk is are arguments
of the events, and `rde_filter` can be any function. A peer is not deleted.

## Layout

- `prefixUpdate`, `prefixWithdraw`: the paths of a destination in a RIB
- `rdeUpdateUpdate`, `rdeUpdateWithdraw`, `networkAdd`, `networkDelete`: paths come and go
- `peerFlush`, `peerUp`, `peerDown`, `peerStale`, `peerBeginRrefresh`: sessions
- `rdeSoftreconfigIn`, `rdeRpkiSoftreload`: the visits of a reload
- `Event`, `step`: the system
-/

namespace Bgpd.Rde.Paths

/-! ## The paths of a destination -/

/-- `struct prefix` -/
structure Path where
  peer : PeerId
  pathId : ℕ := 0
  pathIdTx : ℕ
  state : FilterState := {}
  /-- `PREFIX_FLAG_FILTERED` -/
  filtered : Bool := false
  lastchange : ℕ := 0
  deriving DecidableEq, Repr

/-- `prefix_bypeer` -/
def prefixBypeer (re : List Path) (q : PeerId) (pathId : ℕ) : Option Path :=
  re.find? fun p => p.peer = q ∧ p.pathId = pathId

/-- `prefix_evaluate`, as far as it says which paths there are. -/
def prefixEvaluate (re : List Path) (new old : Option Path) : List Path :=
  new.toList ++ old.elim re re.erase

/-- `prefix_nexthop`, `prefix_nhflags`, `communities_equal` and `path_equal` -/
def sameAttrs (a b : FilterState) : Bool :=
  a.nexthop = b.nexthop ∧ a.nhflags = b.nhflags ∧ a.communities = b.communities ∧
    a.aspath = b.aspath

/-- `prefix_update`: its arguments are the path as `prefix_link` would store it. The result says
    whether the path was added. -/
def prefixUpdate (re : List Path) (new : Path) : Except Fatal (List Path × Bool) :=
  match prefixBypeer re new.peer new.pathId with
  | none => .ok (prefixEvaluate re (some new) none, true)
  | some p =>
    if new.pathIdTx ≠ p.pathIdTx then .error .pathIdMismatch
    else if sameAttrs p.state new.state then
      -- no change, update last change
      let touched := { p with lastchange := new.lastchange }
      let re := re.map fun x => if x = p then touched else x
      -- check if filtered flag or validation state changed
      if p.filtered ≠ new.filtered ∨ p.state.vstate ≠ new.state.vstate then
        let changed := { touched with
          filtered := new.filtered, state := { p.state with vstate := new.state.vstate } }
        .ok (prefixEvaluate (prefixEvaluate re none (some touched)) (some changed) none, false)
      else .ok (re, false)
    else .ok (prefixEvaluate re (some new) (some p), false)

/-- `prefix_withdraw`: the result says whether there was such a path. -/
def prefixWithdraw (re : List Path) (q : PeerId) (pathId : ℕ) : List Path × Bool :=
  match prefixBypeer re q pathId with
  | some p => (prefixEvaluate re none (some p), true)
  -- got a dummy withdrawn request
  | none => (re, false)

/-! ## State -/

variable {ρ : Type}

/-- `struct rib` -/
structure LocRib (ρ : Type) where
  inRules : ρ
  table : PtEntry → List Path := fun _ => []

/-- `struct rde_peer`. The counter is an integer, so that it can be seen to go below zero. -/
structure Peer where
  pathIdTx : ℕ
  maxPrefix : ℕ := 0
  state : PeerState := .none
  /-- `capa.add_path` with `CAPA_AP_RECV` -/
  addPathRecv : Aid → Bool := fun _ => false
  staletime : Aid → Option ℕ := fun _ => none
  prefixCnt : ℤ := 0

/-- The RIBs and the peers. `keys` are the destinations in their order, `clock` is what
    `getmonotime` returned last. -/
structure State (ρ : Type) where
  filteredInLocrib : Bool := false
  peers : PeerId → Option Peer := fun _ => none
  peertable : List PeerId := []
  ribSize : ℕ := 2
  ribs : ℕ → Option (LocRib ρ)
  adjIn : PtEntry → List Path := fun _ => []
  keys : List PtEntry := []
  clock : ℕ := 0

/-- `rde_filter`: `ACTION_ALLOW` or not, and the changed attributes. -/
abbrev Filter (ρ : Type) := ρ → PeerId → PtEntry → FilterState → Bool × FilterState

variable (env : Filter ρ)

def LocRib.setEntry (rib : LocRib ρ) (pt : PtEntry) (re : List Path) : LocRib ρ :=
  { rib with table := Function.update rib.table pt re }

/-- `prefix_withdraw` for a Loc-RIB. -/
def LocRib.withdraw (rib : LocRib ρ) (pt : PtEntry) (q : PeerId) (pathId : ℕ) : LocRib ρ :=
  rib.setEntry pt (prefixWithdraw (rib.table pt) q pathId).1

/-- `prefix_update` for a Loc-RIB. -/
def LocRib.update (rib : LocRib ρ) (pt : PtEntry) (p : Path) : Except Fatal (LocRib ρ) :=
  (prefixUpdate (rib.table pt) p).map fun x => rib.setEntry pt x.1

namespace State

variable (s : State ρ)

def modifyPeer (q : PeerId) (f : Peer → Peer) : State ρ :=
  { s with peers := Function.update s.peers q ((s.peers q).map f) }

def setRib (i : ℕ) (rib : LocRib ρ) : State ρ :=
  { s with ribs := Function.update s.ribs i (some rib) }

def setAdjIn (pt : PtEntry) (re : List Path) : State ρ :=
  { s with adjIn := Function.update s.adjIn pt re }

/-- `pt_add` if `pt_get` does not find the destination. -/
def addKey (pt : PtEntry) : State ρ :=
  if pt ∈ s.keys then s else { s with keys := insertKey pt s.keys }

/-- The number of a peer is changed with its paths. -/
def count (q : PeerId) (n : ℤ) : State ρ :=
  s.modifyPeer q fun peer => { peer with prefixCnt := peer.prefixCnt + n }

/-- The ids of `for (i = RIB_LOC_START; i < rib_size; i++)`. -/
def locIds : List ℕ := List.range' ribLocStart (s.ribSize - ribLocStart)

/-- A change of the RIB with an id, if there is one. -/
def changeRib (f : LocRib ρ → LocRib ρ) (i : ℕ) : State ρ :=
  match s.ribs i with
  | none => s
  | some rib => s.setRib i (f rib)

/-- A change that can fail. -/
def changeRibM (f : ℕ → LocRib ρ → Except Fatal (LocRib ρ)) (i : ℕ) : Except Fatal (State ρ) :=
  match s.ribs i with
  | none => .ok s
  | some rib => (f i rib).map (s.setRib i)

/-- A loop over the Loc-RIBs that withdraws. -/
def forRibs (f : LocRib ρ → LocRib ρ) : State ρ := s.locIds.foldl (fun s i => s.changeRib f i) s

/-- A loop over the Loc-RIBs that updates. -/
def forRibsM (f : ℕ → LocRib ρ → Except Fatal (LocRib ρ)) : Except Fatal (State ρ) :=
  s.locIds.foldlM (fun s i => s.changeRibM f i) s

/-! ## Paths come and go -/

/-- `rde_filter` for a Loc-RIB and what follows from it. -/
def filterPath (pt : PtEntry) (p : Path) (i : ℕ) (rib : LocRib ρ) : Except Fatal (LocRib ρ) :=
  let (allow, state) := env rib.inRules p.peer pt p.state
  if allow then rib.update pt { p with state := state, filtered := false }
  else if s.filteredInLocrib ∧ i = ribLocStart then
    rib.update pt { p with state := state, filtered := true }
  else .ok (rib.withdraw pt p.peer p.pathId)

/-- `pathid_conflict` -/
def pathidConflict (re : List Path) (pathIdTx : ℕ) : Bool := re.any (·.pathIdTx = pathIdTx)

/-- The loop of `pathid_assign`, which draws odd numbers until one is not in use. -/
def drawPathid (re : List Path) (random : List ℕ) : Option ℕ :=
  (random.map (· ||| 1)).find? fun tx => !pathidConflict re tx

/-- `pathid_assign`. There is no result as long as the random numbers are all in use. -/
def pathidAssign (peer : Peer) (q : PeerId) (pathId : ℕ) (pt : PtEntry) (random : List ℕ) :
    Option ℕ :=
  -- if peer has no add-path use the per peer path_id
  if !peer.addPathRecv pt.aid then some peer.pathIdTx
  else
    match prefixBypeer (s.adjIn pt) q pathId with
    | some p => some p.pathIdTx
    | none => drawPathid (s.adjIn pt) random

/-- The original path is added to the Adj-RIB-In and counted. -/
def updateAdjIn (pt : PtEntry) (p : Path) : Except Fatal (State ρ) :=
  (prefixUpdate (s.adjIn pt) p).map fun x =>
    let s := (s.addKey pt).setAdjIn pt x.1
    if x.2 then s.count p.peer 1 else s

/-- The max prefix checker. -/
def exceeded (q : PeerId) : Bool :=
  (s.peers q).any fun peer => peer.maxPrefix ≠ 0 ∧ (peer.maxPrefix : ℤ) < peer.prefixCnt

/-- `rde_update_err` -/
def rdeUpdateErr (q : PeerId) : State ρ := s.modifyPeer q fun peer => { peer with state := .err }

/-- `rde_update_update` -/
def rdeUpdateUpdate (q : PeerId) (peer : Peer) (pathId : ℕ) (pt : PtEntry) (state : FilterState)
    (random : List ℕ) (now : ℕ) : Except Fatal (State ρ) :=
  match s.pathidAssign peer q pathId pt random with
  | none => .ok s
  | some tx => do
    let p : Path := ⟨q, pathId, tx, state, false, now⟩
    let s ← s.updateAdjIn pt p
    if s.exceeded q then .ok (s.rdeUpdateErr q)
    else s.forRibsM (s.filterPath env pt p)

/-- The path is removed from the Adj-RIB-In and counted. -/
def withdrawAdjIn (pt : PtEntry) (q : PeerId) (pathId : ℕ) : State ρ :=
  let (re, found) := prefixWithdraw (s.adjIn pt) q pathId
  let s := s.setAdjIn pt re
  if found then s.count q (-1) else s

/-- `rde_update_withdraw` -/
def rdeUpdateWithdraw (q : PeerId) (pathId : ℕ) (pt : PtEntry) : State ρ :=
  (s.forRibs fun rib => rib.withdraw pt q pathId).withdrawAdjIn pt q pathId

/-- The path id of a prefix of an UPDATE, which only has one with add-path. -/
def wirePathId (peer : Peer) (pt : PtEntry) (pathId : ℕ) : ℕ :=
  if peer.addPathRecv pt.aid then pathId else 0

/-- The peer of a message that is handled: other messages are dropped, and so are flow
    specifications. -/
def upPeer (q : PeerId) (pt : PtEntry) : Option Peer :=
  (s.peers q).filter fun peer => q ≠ peerself ∧ peer.state = .up ∧ !pt.aid.isFlowspec

/-- `network_add` -/
def networkAdd (pt : PtEntry) (state : FilterState) (now : ℕ) : Except Fatal (State ρ) :=
  match s.peers peerself with
  | none => .ok s
  | some self =>
    match s.pathidAssign self peerself 0 pt [] with
    | none => .ok s
    | some tx => do
      let p : Path := ⟨peerself, 0, tx, state, false, now⟩
      let s ← s.updateAdjIn pt p
      s.forRibsM fun _ rib => rib.update pt p

/-- `network_delete` -/
def networkDelete (pt : PtEntry) : State ρ := s.rdeUpdateWithdraw peerself 0 pt

/-! ## Sessions -/

/-- The loop of `peer_add`, which draws even numbers until one is not in use. -/
def drawPeerPathid (random : List ℕ) : Option ℕ :=
  (random.map fun r => r * 2 % 2 ^ 32).find? fun tx =>
    tx ≠ 0 ∧ s.peertable.all fun q => (s.peers q).all (·.pathIdTx ≠ tx)

/-- `peer_add`. Nothing happens as long as the random numbers are all in use. -/
def peerAdd (q : PeerId) (maxPrefix : ℕ) (random : List ℕ) : State ρ :=
  match s.peers q, s.drawPeerPathid random with
  | some _, _ => s.modifyPeer q fun peer => { peer with maxPrefix := maxPrefix }
  | none, none => s
  | none, some tx =>
    { s with
      peers := Function.update s.peers q (some { pathIdTx := tx, maxPrefix := maxPrefix })
      peertable := q :: s.peertable }

/-- The body of the loop in `peer_flush_upcall`, for a path that is flushed. -/
def flushPath (q : PeerId) (pt : PtEntry) (p : Path) : State ρ :=
  let s := s.forRibs fun rib => rib.withdraw pt q p.pathId
  (s.setAdjIn pt (prefixEvaluate (s.adjIn pt) none (some p))).count q (-1)

/-- Is the path old enough to be flushed? Without a valid `staletime` all are. -/
def isStale (staletime : Option ℕ) (p : Path) : Bool := staletime.all (p.lastchange ≤ ·)

/-- `peer_flush_upcall` -/
def peerFlushUpcall (q : PeerId) (staletime : Option ℕ) (pt : PtEntry) : State ρ :=
  (s.adjIn pt).foldl
    (fun s p => if p.peer = q ∧ isStale staletime p then s.flushPath q pt p else s) s

/-- `peer_flush`; no `aid` is `AID_UNSPEC`. -/
def peerFlush (q : PeerId) (aid : Option Aid) (staletime : Option ℕ) : State ρ :=
  let s := (s.keys.filter fun pt => aid.all (· = pt.aid)).foldl
    (fun s pt => s.peerFlushUpcall q staletime pt) s
  -- every route is gone so reset staletime
  s.modifyPeer q fun peer =>
    { peer with staletime := fun a => if aid.all (· = a) then none else peer.staletime a }

/-- `peer_down` -/
def peerDown (q : PeerId) : State ρ :=
  let s := s.modifyPeer q fun peer => { peer with state := .down }
  (s.peerFlush q none none).modifyPeer q fun peer => { peer with prefixCnt := 0 }

/-- `peer_up` -/
def peerUp (q : PeerId) (addPathRecv : Aid → Bool) : State ρ :=
  -- there is a race condition when doing PEER_ERR -> PEER_DOWN
  let s := if (s.peers q).any (·.state = .err) then s.peerDown q else s
  s.modifyPeer q fun peer => { peer with addPathRecv := addPathRecv, state := .up }

/-- Flush the now even staler routes out. -/
def flushStaler (q : PeerId) (aid : Aid) : State ρ :=
  match (s.peers q).bind (·.staletime aid) with
  | some t => s.peerFlush q (some aid) (some t)
  | none => s

/-- A new `staletime`. The loop at the end of `peer_stale` and `peer_begin_rrefresh` sleeps
    until the clock shows another time, `later`. -/
def setStaletime (q : PeerId) (aid : Aid) (now later : ℕ) : State ρ :=
  { s.modifyPeer q (fun peer =>
      { peer with staletime := Function.update peer.staletime aid (some now) }) with
        clock := later }

/-- `peer_stale` -/
def peerStale (q : PeerId) (aid : Aid) (flushall : Bool) (now later : ℕ) : State ρ :=
  let s := (s.flushStaler q aid).setStaletime q aid now later
  let s := s.modifyPeer q fun peer => { peer with state := .down }
  if flushall then s.peerFlush q (some aid) none else s

/-- `peer_begin_rrefresh` -/
def peerBeginRrefresh (q : PeerId) (aid : Aid) (now later : ℕ) : State ρ :=
  (s.flushStaler q aid).setStaletime q aid now later

/-! ## Reloads -/

/-- The new configuration: the RIBs with their rules. RIBs that are new are empty, and a RIB
    that is deleted is emptied first. -/
def reload (ribSize : ℕ) (inRules : ℕ → Option ρ) (filteredInLocrib : Bool) : State ρ :=
  let size := max s.ribSize ribSize
  { s with
    ribSize := size
    filteredInLocrib := filteredInLocrib
    ribs := fun i =>
      if i < ribLocStart ∨ size ≤ i then none
      else (inRules i).map fun rules =>
        { inRules := rules, table := (s.ribs i).elim (fun _ => []) (·.table) } }

/-- `prefix_set_vstate` -/
def setVstate (vstate : Path → ℕ) (p : Path) : Path :=
  { p with state := { p.state with vstate := vstate p } }

/-- A path is filtered again for some of the RIBs. -/
def refilterPath (pt : PtEntry) (f : ℕ → Bool) (now : ℕ) (p : Path) : Except Fatal (State ρ) :=
  s.forRibsM fun i rib =>
    if f i then s.filterPath env pt { p with lastchange := now } i rib else .ok rib

/-- The paths of a destination that are filtered again. `F_PREFIX_ANNOUNCED` networks never are. -/
def refilter (pt : PtEntry) (f : ℕ → Bool) (now : ℕ) (todo : List Path) : Except Fatal (State ρ) :=
  (todo.filter fun p => !p.state.aspath.flags.announced).foldlM
    (fun s p => s.refilterPath env pt f now p) s

/-- `rde_softreconfig_in`: only RIBs that are reloaded are filled again. The validation states do
    not depend on the Loc-RIBs, so that they are all set first. -/
def rdeSoftreconfigIn (pt : PtEntry) (vstate : Path → ℕ) (reloaded : ℕ → Bool) (now : ℕ) :
    Except Fatal (State ρ) :=
  let re := (s.adjIn pt).map (setVstate vstate)
  (s.setAdjIn pt re).refilter env pt reloaded now re

/-- `rde_rpki_softreload` -/
def rdeRpkiSoftreload (pt : PtEntry) (vstate : Path → ℕ) (now : ℕ) : Except Fatal (State ρ) :=
  let re := s.adjIn pt
  let changed := re.filter fun p => vstate p ≠ p.state.vstate
  (s.setAdjIn pt (re.map (setVstate vstate))).refilter env pt (fun _ => true) now
    (changed.map (setVstate vstate))

end State

/-! ## The system -/

/-- What may happen to the RDE. -/
inductive Event (ρ : Type) where
  | peerAdd (q : PeerId) (maxPrefix : ℕ) (random : List ℕ)
  | up (q : PeerId) (addPathRecv : Aid → Bool)
  | down (q : PeerId)
  | stale (q : PeerId) (aid : Aid) (flushall : Bool) (now later : ℕ)
  | flush (q : PeerId) (aid : Option Aid) (staletime : Option ℕ)
  | beginRrefresh (q : PeerId) (aid : Aid) (now later : ℕ)
  | updateErr (q : PeerId)
  | update (q : PeerId) (pathId : ℕ) (pt : PtEntry) (state : FilterState) (random : List ℕ)
      (now : ℕ)
  | withdraw (q : PeerId) (pathId : ℕ) (pt : PtEntry)
  | networkAdd (pt : PtEntry) (state : FilterState) (now : ℕ)
  | networkDelete (pt : PtEntry)
  | reload (ribSize : ℕ) (inRules : ℕ → Option ρ) (filteredInLocrib : Bool)
  | softreconfigIn (pt : PtEntry) (vstate : Path → ℕ) (reloaded : ℕ → Bool) (now : ℕ)
  | rpkiSoftreload (pt : PtEntry) (vstate : Path → ℕ) (now : ℕ)

namespace State

variable (s : State ρ)

/-- The clock shows the time of the event. -/
def setClock (now : ℕ) : State ρ := { s with clock := now }

/-- One step of the RDE; an error is a call of `fatalx`. Session events do not happen to the peer
    of the networks announced locally. -/
def step : Event ρ → Except Fatal (State ρ)
  | .peerAdd q maxPrefix random => .ok (s.peerAdd q maxPrefix random)
  | .up q addPathRecv => .ok (if q = peerself then s else s.peerUp q addPathRecv)
  | .down q => .ok (if q = peerself then s else s.peerDown q)
  | .stale q aid flushall now later =>
    .ok (if q = peerself then s else s.peerStale q aid flushall now later)
  | .flush q aid staletime => .ok (if q = peerself then s else s.peerFlush q aid staletime)
  | .beginRrefresh q aid now later =>
    .ok (if q = peerself then s else s.peerBeginRrefresh q aid now later)
  | .updateErr q => .ok (if q = peerself then s else s.rdeUpdateErr q)
  | .update q pathId pt state random now =>
    match s.upPeer q pt with
    | none => .ok s
    | some peer =>
      (s.setClock now).rdeUpdateUpdate env q peer (wirePathId peer pt pathId) pt state random now
  | .withdraw q pathId pt =>
    match s.upPeer q pt with
    | none => .ok s
    | some peer => .ok (s.rdeUpdateWithdraw q (wirePathId peer pt pathId) pt)
  | .networkAdd pt state now => (s.setClock now).networkAdd pt state now
  | .networkDelete pt => .ok (s.networkDelete pt)
  | .reload ribSize inRules filteredInLocrib => .ok (s.reload ribSize inRules filteredInLocrib)
  | .softreconfigIn pt vstate reloaded now =>
    (s.setClock now).rdeSoftreconfigIn env pt vstate reloaded now
  | .rpkiSoftreload pt vstate now => (s.setClock now).rdeRpkiSoftreload env pt vstate now

end State

/-- `rib_init` and `peer_init`. -/
def State.init (rules : ρ) (random : List ℕ) : State ρ :=
  let s : State ρ :=
    { ribs := Function.update (fun _ => none) ribLocStart (some { inRules := rules }) }
  (s.peerAdd peerself 0 random).modifyPeer peerself fun peer => { peer with state := .up }

/-- The step function for runs: the program ends at a `fatalx`. -/
def rdeStep (s : State ρ) (e : Event ρ) : Option (State ρ) := (s.step env e).toOption

end Bgpd.Rde.Paths
