import Bgpd.Session.Fsm

/-!
# What Happens to a Peer

The handlers of the session engine as functions on one peer: `init_peer`, the timers and the
throttling of the main loop, messages from the RDE, requests of `bgpctl`, and the parts of a
reload.

## Main definitions

- `Cur.initPeer`, `Cur.checkTimers`
- `Cur.updateErr`, `Cur.restarted`
- `Cur.mergePeer`, `Cur.mergeClone`: a reload
- `PeerEvent`, `Cur.handle`: all of them
-/

namespace Bgpd.Session

open Rde (Aid)

namespace Cur

/-! ## The main loop -/

/-- Settings of a peer that are 0 are taken from the global ones. -/
def applyDefaults (conf : BgpdConfig) (p : PeerConf) : PeerConf :=
  { p with
    holdtime := if p.holdtime = 0 then conf.holdtime else p.holdtime
    minHoldtime := if p.minHoldtime = 0 then conf.minHoldtime else p.minHoldtime
    connectretry := if p.connectretry = 0 then conf.connectretry else p.connectretry }

/-- `init_peer` up to `change_state`. -/
def initFields (env : Env) (c : Cur) : Cur :=
  let c := c.modify fun p => { p with timers := .empty, fd := none, wbuf := true }
  let c := if c.peer.conf.ifDepend ≠ "" then c.send (.dependon c.peer.conf.ifDepend)
    else c.modify fun p => { p with dependOk := true }
  c.modify fun p =>
    { p with conf := applyDefaults env.conf p.conf, localBgpid := env.conf.bgpid }

/-- On startup, demote if requested. Peers added at runtime must reach ESTABLISHED beforehand. -/
def initDemote (c : Cur) : Cur :=
  if c.peer.reconfAction ≠ .reinit ∧ c.peer.conf.demoteGroup ≠ "" then c.sessionDemote 1 else c

/-- `init_peer` -/
def initPeer (env : Env) (c : Cur) : Cur :=
  let c := (c.initFields env).changeState env .idle .none
  (if c.peer.conf.down then c else c.fsm env .start).initDemote

/-- What `getpeerbyip` does with a new clone behind `init_peer`. -/
def startClone (env : Env) (c : Cur) : Cur :=
  -- start delete timer, it is stopped when session goes up.
  (c.timerSet env.now .sessionDown intervalSessionDown).fsm env .start

/-- The case of the timer `t` in `session_main`. -/
def timerDue (env : Env) (t : TimerType) (c : Cur) : Cur :=
  match t with
  | .hold => c.fsm env .timerHoldtime
  | .sendHold => c.fsm env .timerSendhold
  | .connectRetry => c.fsm env .timerConnretry
  | .keepalive => c.fsm env .timerKeepalive
  | .idleHold => c.fsm env .start
  | .idleHoldReset => (c.modify fun p => { p with idleHoldTime := 0 }).timerStop .idleHoldReset
  | .carpUndemote =>
    let c := c.timerStop .carpUndemote
    if c.peer.demoted ≠ 0 ∧ c.peer.state = .established then c.sessionDemote (-1) else c
  | .restartTimeout => (c.timerStop .restartTimeout).sessionGracefulStop
  | .sessionDown =>
    let c := (c.timerStop .sessionDown).imsgRde .sessionDelete
    let c := c.modify fun p => { p with rdesession := false }
    -- finally delete this cloned peer
    if c.peer.template.isSome then c.modify fun p => { p with reconfAction := .delete } else c

/-- The check of the timers in `session_main`: only the first one. -/
def checkTimers (env : Env) (c : Cur) : Cur :=
  match c.peer.timers.nextisdue env.now with
  | some t => c.timerDue env t
  | none => c

/-- Whether the peer needs throttling: `high` and `low` tell whether the queue is above
    `SESS_MSG_HIGH_MARK` and below `SESS_MSG_LOW_MARK`. -/
def throttle (high low : Bool) (c : Cur) : Cur :=
  let c := if !c.peer.throttled && high then
      (c.imsgRde .xoff).modify fun p => { p with throttled := true }
    else c
  if c.peer.throttled && low then
    (c.imsgRde .xon).modify fun p => { p with throttled := false }
  else c

/-! ## Messages from the RDE and the parent -/

/-- `IMSG_UPDATE_ERR` -/
def updateErr (env : Env) (errcode : ErrCode) (subcode : ℕ) (c : Cur) : Cur :=
  let c := c.sessionNotification env errcode subcode
  if errcode = .cease ∧ (subcode = Cease.maxPrefix ∨ subcode = Cease.maxSentPrefix) then
    let t := if subcode = Cease.maxPrefix then c.peer.conf.maxPrefixRestart
      else c.peer.conf.maxOutPrefixRestart
    let c := c.fsm env .stop
    if t ≠ 0 then c.timerSet env.now .idleHold (60 * t) else c
  else c.fsm env .conFatal

/-- `IMSG_SESSION_RESTARTED` -/
def restarted (aid : Aid) (c : Cur) : Cur :=
  if (c.peer.capa.neg.grestart.flags aid).pending then
    -- signal back to RDE to cleanup stale routes
    (c.imsgRde (.restarted aid)).setGr aid fun f => { f with finished := true }
  else c

/-- `IMSG_SESSION_DEPENDON` for a peer that depends on the interface. -/
def dependon (env : Env) (dependOk : Bool) (c : Cur) : Cur :=
  if dependOk && !c.peer.dependOk then
    (c.modify fun p => { p with dependOk := true }).fsm env .start
  else if !dependOk && c.peer.dependOk then
    (c.modify fun p => { p with dependOk := false }).sessionStop env Cease.otherChange
  else c

/-! ## Requests of `bgpctl` -/

/-- `IMSG_CTL_NEIGHBOR_UP` -/
def neighborUp (env : Env) (c : Cur) : Cur :=
  (c.fsm env .start).modify fun p =>
    { p with conf := { p.conf with down := false }, idleHoldTime := 0 }

/-- `IMSG_CTL_NEIGHBOR_DOWN` -/
def neighborDown (env : Env) (c : Cur) : Cur :=
  (c.modify fun p => { p with conf := { p.conf with down := true } }).sessionStop env
    Cease.adminDown

/-- `IMSG_CTL_NEIGHBOR_CLEAR` -/
def neighborClear (env : Env) (c : Cur) : Cur :=
  let c := c.modify fun p => { p with idleHoldTime := 0 }
  if c.peer.conf.down then c.sessionStop env Cease.adminDown
  else (c.sessionStop env Cease.adminReset).timerSet env.now .idleHold sessionClearDelay

/-- `IMSG_CTL_NEIGHBOR_DESTROY` -/
def neighborDestroy (c : Cur) : Cur :=
  if c.peer.template.isSome ∧ c.peer.state = .idle then
    c.modify fun p => { p with reconfAction := .delete }
  else c

/-! ## Reloads -/

/-- The peer is in the new configuration: the loop body of `merge_peers` up to the clones. The
    functions that tell the listening sockets about MD5 keys do nothing in `pfkey.c`. -/
def mergePeer (conf : BgpdConfig) (np : PeerConf) (auth : AuthConf) (c : Cur) : Cur :=
  let c := c.modify fun p => { p with
    conf := applyDefaults conf np
    authConf := auth
    reconfAction := .keep
    localBgpid := conf.bgpid }
  -- had demotion, is demoted, demote removed?
  let c := if c.peer.demoted ≠ 0 ∧ c.peer.conf.demoteGroup = "" then c.sessionDemote (-1) else c
  -- if session is not open then refresh pfkey data
  let c := if c.peer.state.val < State.opensent.val ∧ c.peer.template = none then
      c.send (.pfkeyReload c.peer.conf.id) else c
  if c.peer.rdesession then c.imsgRde (.sessionAdd c.peer.conf) else c

/-- `session_template_clone`: the settings of a clone with the given address and id. -/
def sessionTemplateClone (template : PeerConf) (remoteAddr : Rde.BgpdAddr) (id as : ℕ) :
    PeerConf :=
  let conf := { template with id := id, remoteAddr := remoteAddr, template := false }
  let conf := if as ≠ 0 then
      { conf with
        remoteAs := as
        ebgp := as ≠ conf.localAs
        -- force enforce_as off for iBGP sessions
        enforceAs := if as = conf.localAs then .off else conf.enforceAs }
    else conf
  match remoteAddr.aid with
  | some .inet => { conf with remoteMasklen := 32 }
  | some .inet6 => { conf with remoteMasklen := 128 }
  | _ => conf

/-- The config of a template is applied to a clone in `merge_peers`; `auth_conf` stays. -/
def mergeClone (conf : BgpdConfig) (template : PeerConf) (c : Cur) : Cur :=
  let c := c.modify fun p => { p with
    conf := sessionTemplateClone template p.conf.remoteAddr p.conf.id p.conf.remoteAs
    localBgpid := conf.bgpid }
  if c.peer.rdesession then c.imsgRde (.sessionAdd c.peer.conf) else c

/-- What `session_main` does before it removes a peer. -/
def removePeer (env : Env) (c : Cur) : Cur :=
  let c := if c.peer.demoted ≠ 0 then c.sessionDemote (-1) else c
  let c := c.modify fun p => { p with conf := { p.conf with demoteGroup := "" } }
  let c := c.sessionStop env Cease.peerUnconf
  (c.modify fun p => { p with timers := .empty }).imsgRde .sessionDelete

end Cur

/-! ## Events -/

/-- What can happen to a peer while it is in the tree. -/
inductive PeerEvent where
  | init
  | startClone
  | timers
  | throttle (high low : Bool)
  | accept (fd : ℕ) (setupFails sockFails : Bool)
  | poll (revents : Revents)
  | message (msg : InMsg)
  | update (data : List UInt8)
  | updateErr (errcode : ErrCode) (subcode : ℕ)
  | refresh (aid : Aid) (subtype : ℕ)
  | restarted (aid : Aid)
  | dependon (dependOk : Bool)
  | neighborUp | neighborDown | neighborClear | neighborRrefresh | neighborDestroy
  | mergePeer (np : PeerConf) (auth : AuthConf)
  | mergeClone (template : PeerConf)
  | setReconf (action : ReconfAction)
  deriving DecidableEq

/-- `init_peer` is called for new peers only, and only peers with a buffer have messages. -/
def Cur.handle (env : Env) (event : PeerEvent) (c : Cur) : Cur :=
  match event with
  | .init => if c.peer.state = .none then c.initPeer env else c
  | .startClone => c.startClone env
  | .timers => c.checkTimers env
  | .throttle high low => c.throttle high low
  | .accept fd setupFails sockFails => c.sessionAccept env fd setupFails sockFails
  | .poll revents => c.sessionDispatchMsg env revents
  | .message msg => if c.peer.wbuf then c.processMsg env msg else c
  | .update data => c.sessionUpdate env data
  | .updateErr errcode subcode => c.updateErr env errcode subcode
  | .refresh aid subtype => c.sessionRrefresh env aid subtype
  | .restarted aid => c.restarted aid
  | .dependon dependOk => c.dependon env dependOk
  | .neighborUp => c.neighborUp env
  | .neighborDown => c.neighborDown env
  | .neighborClear => c.neighborClear env
  | .neighborRrefresh => c.sessionNeighborRrefresh env
  | .neighborDestroy => c.neighborDestroy
  | .mergePeer np auth => c.mergePeer env.conf np auth
  | .mergeClone template => c.mergeClone env.conf template
  | .setReconf action => c.modify fun p => { p with reconfAction := action }

end Bgpd.Session
