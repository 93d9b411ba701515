import Bgpd.Session.Handlers

/-!
# The Session Engine

All peers together: the main loop of `session.c` with the initialisation and removal of peers,
`getpeerbyip` with the cloning of templates, and reloads with `merge_peers`. The tree of the peers
is the list in which `RB_FOREACH` visits them. Their ids are less than `2 ^ 31` apart, as signed
numbers: those of the configuration count up from 2, those of clones down from -1.

## Main definitions

- `Engine`: the peers and the configuration
- `Engine.mainPass`: the first loop of `session_main`
- `Engine.getpeerbyip`, `Engine.mergePeers`
- `EngineEvent`, `Engine.step`
-/

namespace Bgpd.Session

open Rde (Aid BgpdAddr)

/-- The state of the session engine; `nconf` is the configuration of a reload that is being sent,
    `nextAddr` the address of the next `struct peer`. -/
structure Engine where
  conf : BgpdConfig := {}
  peers : List Peer := []
  nconf : Option (BgpdConfig × List Peer) := none
  pendingReconf : Bool := false
  nextAddr : ℕ := 0
  out : List Out := []

/-- The largest id of a neighbor of the configuration: `PEER_ID_STATIC_MAX`. -/
def peerIdStaticMax : ℕ := 2 ^ 31 - 1
/-- `PEER_ID_DYN_MAX` -/
def peerIdDynMax : ℕ := 2 ^ 32 - 1

/-- `applymask` -/
def applymask (src : BgpdAddr) (prefixlen : ℕ) : BgpdAddr :=
  match src.aid with
  | some .inet => { src with addr := src.addr / 2 ^ (32 - prefixlen) * 2 ^ (32 - prefixlen) }
  | some .inet6 => { src with addr := src.addr / 2 ^ (128 - prefixlen) * 2 ^ (128 - prefixlen) }
  | _ => src

/-- `session_match_mask` -/
def sessionMatchMask (p : Peer) (a : BgpdAddr) : Bool :=
  applymask a p.conf.remoteMasklen = p.conf.remoteAddr

/-- `peer_compare`: the difference of two `uint32_t`, returned as an `int`. -/
def peerCompare (a b : Peer) : ℤ := ((a.conf.id : ℤ) - b.conf.id).bmod (2 ^ 32)

/-- `RB_INSERT` of a peer whose id is not there. -/
def insertPeer (p : Peer) : List Peer → List Peer
  | [] => [p]
  | q :: l => if peerCompare p q < 0 then p :: q :: l else q :: insertPeer p l

namespace Engine

variable (e : Engine)

/-- The engine supplies the configuration. -/
def env (env : Env) : Env := { env with conf := e.conf }

/-- The peers that `sel` selects are handled by `f`, in the order of the tree. -/
def atPeers (sel : Peer → Bool) (f : Cur → Cur) : Engine :=
  { e with
    peers := e.peers.map fun p => if sel p then (f { peer := p }).peer else p
    out := e.out ++ e.peers.flatMap fun p => if sel p then (f { peer := p }).out else [] }

/-! ## The main loop -/

/-- A peer in the first loop of `session_main`. -/
def mainPeer (env : Env) (c : Cur) : Cur :=
  -- new peer that needs init?
  let c := if c.peer.state = .none then c.initPeer env else c
  -- deletion due?
  if c.peer.reconfAction = .delete then c.removePeer env
  else c.modify fun p => { p with reconfAction := .none }

/-- The first loop of `session_main`. -/
def mainPass (env : Env) : Engine :=
  if e.pendingReconf then e
  else
    { e with
      peers := (e.peers.filter (·.reconfAction ≠ .delete)).map fun p =>
        (mainPeer (e.env env) { peer := p }).peer
      out := e.out ++ e.peers.flatMap fun p => (mainPeer (e.env env) { peer := p }).out }

/-! ## Cloning -/

/-- The template with the longest prefix that matches, the first one of those. -/
def looseMatch (a : BgpdAddr) : List Peer → Option Peer → Option Peer
  | [], loose => loose
  | p :: l, loose =>
    if p.conf.template && p.conf.remoteAddr.aid = a.aid && sessionMatchMask p a &&
        loose.all (·.conf.remoteMasklen < p.conf.remoteMasklen) then
      looseMatch a l (some p)
    else looseMatch a l loose

/-- The first free id, counting down. -/
def freeId (ids : List ℕ) : ℕ → ℕ → ℕ
  | 0, id => id
  | fuel + 1, id => if id ∈ ids then freeId ids fuel (id - 1) else id

/-- The new peer of `getpeerbyip` before `init_peer`. -/
def clonePeer (template : Peer) (a : BgpdAddr) : Peer :=
  { template with
    template := some template.addr
    addr := e.nextAddr
    conf := Cur.sessionTemplateClone template.conf a
      (freeId (e.peers.map (·.conf.id)) (peerIdDynMax - peerIdStaticMax) peerIdDynMax) 0
    state := .none
    prevState := .none
    reconfAction := .keep
    wbuf := false }

/-- A template is cloned for the address. -/
def addClone (env : Env) (template : Peer) (a : BgpdAddr) : Engine :=
  let c := (Cur.initPeer (e.env env) { peer := e.clonePeer template a }).startClone (e.env env)
  { e with
    peers := insertPeer c.peer e.peers
    nextAddr := e.nextAddr + 1
    out := e.out ++ c.out }

/-- `getpeerbyip`: the id of the peer, if there is one or a template to clone. -/
def getpeerbyip (env : Env) (a : BgpdAddr) : Engine × Option ℕ :=
  match e.peers.find? fun p => !p.conf.template && p.conf.remoteAddr = a with
  | some p => (e, some p.conf.id)
  | none =>
    -- try template matching
    match looseMatch a e.peers none with
    | some template => (e.addClone env template a, some (e.clonePeer template a).conf.id)
    | none => (e, none)

/-- `session_accept` with a connection from the address. -/
def accept (env : Env) (a : BgpdAddr) (fd : ℕ) (setupFails sockFails : Bool) : Engine :=
  match e.getpeerbyip env a with
  | (e, some id) =>
    e.atPeers (·.conf.id = id) (Cur.sessionAccept (e.env env) fd setupFails sockFails)
  | (e, none) => e

/-! ## Reloads -/

/-- The loop body of `merge_peers` for the peer `p`. -/
def mergePeer (nc : BgpdConfig) (nps : List Peer) (e : Engine) (p : Peer) : Engine :=
  -- templates are handled specially
  if p.template.isSome then e
  else match nps.find? (·.conf.id = p.conf.id) with
    | none =>
      e.atPeers (·.addr = p.addr) fun c => c.modify fun p => { p with reconfAction := .delete }
    | some np =>
      let e := e.atPeers (·.addr = p.addr) (Cur.mergePeer nc np.conf np.authConf)
      -- apply the config to all clones of a template
      if np.conf.template then
        e.atPeers (·.template = some p.addr)
          (Cur.mergeClone nc (Cur.applyDefaults nc np.conf))
      else e

/-- The new peers that are not in the tree yet. -/
def newPeers (peers nps : List Peer) : List Peer :=
  nps.filter fun np => !peers.any fun p => p.template.isNone && p.conf.id = np.conf.id

/-- `merge_peers` -/
def mergePeers (nc : BgpdConfig) (nps : List Peer) : Engine :=
  let merged := e.peers.foldl (mergePeer nc nps) e
  { merged with
    peers := (newPeers e.peers nps).foldl (fun l np => insertPeer np l) merged.peers
    out := merged.out ++ [.drainRde] }

/-- `IMSG_RECONF_DONE` -/
def reconfDone : Engine :=
  match e.nconf with
  | none => e
  | some (nc, nps) =>
    { { e with conf := nc }.mergePeers nc nps with nconf := none, pendingReconf := false }

/-- `IMSG_RECONF_PEER` -/
def reconfPeer (conf : PeerConf) : Engine :=
  match e.nconf with
  | none => e
  | some (nc, nps) =>
    { e with
      nconf := some (nc, insertPeer { conf := conf, addr := e.nextAddr } nps)
      nextAddr := e.nextAddr + 1 }

/-- `IMSG_RECONF_PEER_AUTH`: `pfkey_recv_conf` sets the method. -/
def reconfPeerAuth (id : ℕ) (method : AuthMethod) : Engine :=
  match e.nconf with
  | none => e
  | some (nc, nps) =>
    { e with
      nconf := some (nc, nps.map fun p =>
        if p.conf.id = id then { p with authConf := { p.authConf with method := method } } else p) }

/-! ## Events -/

end Engine

/-- Events of one peer that come from outside of the engine. -/
def PeerEvent.outer : PeerEvent → Bool
  | .timers | .throttle _ _ | .poll _ | .message _ | .update _ | .updateErr _ _ | .refresh _ _
  | .restarted _ | .neighborUp | .neighborDown | .neighborClear | .neighborRrefresh
  | .neighborDestroy => true
  | _ => false

/-- What can happen to the engine. -/
inductive EngineEvent where
  | main
  /-- An event of the peer with the id. -/
  | peer (id : ℕ) (event : PeerEvent)
  | accept (a : BgpdAddr) (fd : ℕ) (setupFails sockFails : Bool)
  | dependon (ifname : String) (dependOk : Bool)
  | reconfConf (conf : BgpdConfig)
  | reconfPeer (conf : PeerConf)
  | reconfPeerAuth (id : ℕ) (method : AuthMethod)
  | reconfDone
  /-- `IMSG_RECONF_DRAIN` from the parent and from the RDE. -/
  | drainMain
  | drainRde
  deriving DecidableEq

/-- The engine handles an event. -/
def Engine.step (e : Engine) (env : Env) (event : EngineEvent) : Engine :=
  match event with
  | .main => e.mainPass env
  | .peer id event =>
    if event.outer then e.atPeers (·.conf.id = id) (Cur.handle (e.env env) event) else e
  | .accept a fd setupFails sockFails => e.accept env a fd setupFails sockFails
  | .dependon ifname dependOk =>
    e.atPeers (·.conf.ifDepend = ifname) (Cur.dependon (e.env env) dependOk)
  | .reconfConf conf => { e with nconf := some (conf, []), pendingReconf := true }
  | .reconfPeer conf => e.reconfPeer conf
  | .reconfPeerAuth id method => e.reconfPeerAuth id method
  | .reconfDone => e.reconfDone
  | .drainMain => { e with out := e.out ++ [.drainMain] }
  | .drainRde => { e with out := e.out ++ [.doneMain] }

/-- A run of the engine from its start. -/
def Engine.run (events : List (Env × EngineEvent)) : Engine :=
  events.foldl (fun e s => e.step s.1 s.2) {}

end Bgpd.Session
