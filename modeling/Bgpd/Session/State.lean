import Bgpd.Session.Types

/-!
# Changes of the Session State

Model of `change_state` in `session_bgp.c` and of the functions of `session.c` that it calls, and
of the functions that send a message to the neighbor. There may be no memory for a message; then
`EVNT_CON_FATAL` is raised on the spot.

## Main definitions

- `Env`: what the engine reads of its surroundings
- `Cur.changeState`: `change_state`
- `Cur.sessionGracefulRestart`, `Cur.sessionDown`, `Cur.sessionUp`, `Cur.sessionDemote`
- `Cur.sessionNotification`, `Cur.sessionKeepalive`, `Cur.sessionUpdate`
-/

namespace Bgpd.Session

open Rde (Aid)

/-- What comes of a `connect` to the neighbor; `fd` is the new descriptor. -/
inductive ConnectResult where
  | noSocket
  | failed (fd : ℕ)
  | inProgress (fd : ℕ)
  | connected (fd : ℕ)
  deriving DecidableEq, Repr

/-- The clock, the global settings, how a connection attempt ends, and the messages for which there
    is no memory. -/
structure Env where
  now : ℕ
  conf : BgpdConfig := {}
  connect : ConnectResult := .noSocket
  fails : BgpMsg → Bool := fun _ => false

namespace Cur

/-! ## Messages to the RDE and the parent -/

/-- `session_demote`; `demoted` has 8 bits. -/
def sessionDemote (level : ℤ) (c : Cur) : Cur :=
  (c.send (.demote c.peer.conf.id c.peer.conf.demoteGroup level)).modify
    fun p => { p with demoted := ((p.demoted + level) % 256).toNat }

/-- `session_md5_reload` -/
def sessionMd5Reload (c : Cur) : Cur :=
  if c.peer.template.isSome then c else c.send (.pfkeyReload c.peer.conf.id)

/-- `session_close` -/
def sessionClose (c : Cur) : Cur := c.modify fun p => { p with fd := none }

/-- `session_down` -/
def sessionDown (env : Env) (c : Cur) : Cur :=
  ((c.modify fun p => { p with capa := { p.capa with neg := {} } }).timerSet env.now .sessionDown
    intervalSessionDown).imsgRde .sessionDown

/-- Inform the RDE about the peer, if it does not know it yet. -/
def rdeAdd (c : Cur) : Cur :=
  if c.peer.rdesession then c
  else (c.imsgRde (.sessionAdd c.peer.conf)).modify fun p => { p with rdesession := true }

/-- `session_up` -/
def sessionUp (c : Cur) : Cur :=
  let c := (c.timerStop .sessionDown).rdeAdd
  c.imsgRde (.sessionUp c.peer.remoteBgpid c.peer.shortAs c.peer.capa.neg)

/-! ## Graceful restart -/

/-- Replace the restart flags of a family. -/
def setGr (aid : Aid) (f : GrFlags → GrFlags) (c : Cur) : Cur :=
  c.modify fun p => { p with capa := { p.capa with neg := { p.capa.neg with
    grestart := { p.capa.neg.grestart with
      flags := Function.update p.capa.neg.grestart.flags aid
        (f (p.capa.neg.grestart.flags aid)) } } } }

/-- The loop body of `session_graceful_restart`. -/
def gracefulRestartAid (c : Cur) (aid : Aid) : Cur :=
  if (c.peer.capa.neg.grestart.flags aid).present then
    (c.imsgRde (.stale aid)).setGr aid fun _ => { restarting := true }
  else if c.peer.capa.neg.mp aid ≠ 0 then
    (c.imsgRde (.nograce aid)).setGr aid fun _ => {}
  else c

/-- How long stale routes are kept. -/
def staletime (env : Env) (p : Peer) : ℕ :=
  min (if p.conf.staletime ≠ 0 then p.conf.staletime else env.conf.staletime)
    p.capa.neg.grestart.timeout

/-- `session_graceful_restart` -/
def sessionGracefulRestart (env : Env) (c : Cur) : Cur :=
  let staletime := staletime env c.peer
  let c := c.timerSet env.now .restartTimeout staletime
  let c := c.timerSet env.now .sessionDown
    (max staletime (intervalSessionDown - intervalStale) + intervalStale)
  Aid.all.foldl gracefulRestartAid c

/-- `session_graceful_flush` -/
def sessionGracefulFlush (aid : Aid) (c : Cur) : Cur := c.imsgRde (.flush aid)

/-- The loop body of `session_graceful_stop`. -/
def gracefulStopAid (c : Cur) (aid : Aid) : Cur :=
  (if (c.peer.capa.neg.grestart.flags aid).pending then c.sessionGracefulFlush aid
    else c).setGr aid fun f => { f with finished := true }

/-- `session_graceful_stop` -/
def sessionGracefulStop (c : Cur) : Cur := Aid.all.foldl gracefulStopAid c

/-! ## Changing the state -/

/-- The timers that stop with a connection. -/
def stopTimers (c : Cur) : Cur :=
  (((((c.timerStop .connectRetry).timerStop .keepalive).timerStop .hold).timerStop
    .sendHold).timerStop .idleHold).timerStop .idleHoldReset

/-- Everything about the connection is reset. -/
def resetConnection (c : Cur) : Cur :=
  let c := (c.modify fun p => { p with holdtime := intervalHoldInitial }).stopTimers.sessionClose
  c.modify fun p => { p with capa := { p.capa with peer := {} } }

/-- Carp demotion when a session is lost. -/
def idleDemote (c : Cur) : Cur :=
  if c.peer.prevState = .established ∧ c.peer.conf.demoteGroup ≠ "" ∧ c.peer.demoted = 0 then
    c.sessionDemote 1
  else c

/-- Initialize the capability negotiation structures. -/
def idleAnnounce (c : Cur) : Cur :=
  if c.peer.prevState = .none ∨ c.peer.prevState = .established then
    c.modify fun p => { p with capa := { p.capa with ann := p.conf.capabilities } }
  else c

/-- The loss of the session starts a graceful restart. -/
def restarts (p : Peer) (event : Event) : Bool :=
  p.capa.neg.grestart.restart = 2 &&
    (event = .conClosed || event = .conFatal ||
      (p.capa.neg.grestart.grnotification ≠ 0 &&
        (event = .rcvdGraceNotification || event = .timerHoldtime || event = .timerSendhold)))

/-- The time in `STATE_IDLE` doubles, up to a limit. -/
def doubleIdleHold (c : Cur) : Cur :=
  c.modify fun p => { p with
    idleHoldTime := min (if p.idleHoldTime * 2 = 0 then intervalIdleHoldInitial
      else p.idleHoldTime * 2) maxIdleHold }

/-- What `change_state` does about a session that ended. -/
def sessionLost (env : Env) (event : Event) (c : Cur) : Cur :=
  if event = .stop then c.sessionDown env
  else if restarts c.peer event then
    (c.timerSet env.now .idleHold 0).sessionGracefulRestart env
  else
    ((c.timerSet env.now .idleHold c.peer.idleHoldTime).sessionDown env).doubleIdleHold

/-- The case `STATE_IDLE` of `change_state`. -/
def enterIdle (env : Env) (event : Event) (c : Cur) : Cur :=
  let c := c.idleDemote.resetConnection.sessionMd5Reload.idleAnnounce
  match c.peer.prevState with
  | .none => c
  | .established => c.sessionLost env event
  | _ =>
    (if event ≠ .stop then c.timerSet env.now .idleHold c.peer.idleHoldTime
      else c).doubleIdleHold

/-- The case `STATE_CONNECT` of `change_state`. -/
def enterConnect (env : Env) (c : Cur) : Cur :=
  if c.peer.prevState = .established ∧ c.peer.capa.neg.grestart.restart = 2 then
    (c.sessionGracefulRestart env).resetConnection
  else c

/-- The timers that start with a session. -/
def establishedTimers (env : Env) (c : Cur) : Cur :=
  let c := c.timerSet env.now .idleHoldReset c.peer.idleHoldTime
  if c.peer.demoted ≠ 0 then c.timerSet env.now .carpUndemote intervalHoldDemoted else c

/-- The case `STATE_ESTABLISHED` of `change_state`. -/
def enterEstablished (env : Env) (c : Cur) : Cur := (c.establishedTimers env).sessionUp

/-- `change_state` -/
def changeState (env : Env) (state : State) (event : Event) (c : Cur) : Cur :=
  let c := c.modify fun p => { p with prevState := p.state, state := state }
  match state with
  | .idle => c.enterIdle env event
  | .connect => c.enterConnect env
  | .active => c.sessionMd5Reload
  | .established => c.enterEstablished env
  | _ => c

/-! ## Messages to the neighbor -/

/-- `bgp_fsm` with `EVNT_CON_FATAL`. -/
def fsmConFatal (env : Env) (c : Cur) : Cur :=
  match c.peer.state with
  | .none | .idle => c
  | _ => c.changeState env .idle .conFatal

/-- A message is built and queued, if there is memory for it. Then `sent` follows. -/
def trySend (env : Env) (msg : BgpMsg) (sent : Cur → Cur) (c : Cur) : Cur :=
  if env.fails msg then c.fsmConFatal env else sent (c.sessionSendmsg msg)

/-- `start_timer_holdtime` -/
def startTimerHoldtime (env : Env) (c : Cur) : Cur :=
  if c.peer.holdtime > 0 then c.timerSet env.now .hold c.peer.holdtime else c.timerStop .hold

/-- `start_timer_sendholdtime` -/
def startTimerSendholdtime (env : Env) (c : Cur) : Cur :=
  if c.peer.holdtime > 0 then c.timerSet env.now .sendHold (max c.peer.holdtime intervalHold)
  else c.timerStop .sendHold

/-- `start_timer_keepalive` -/
def startTimerKeepalive (env : Env) (c : Cur) : Cur :=
  if c.peer.holdtime > 0 then c.timerSet env.now .keepalive (c.peer.holdtime / 3)
  else c.timerStop .keepalive

/-- `session_keepalive` -/
def sessionKeepalive (env : Env) (c : Cur) : Cur :=
  c.trySend env .keepalive (startTimerKeepalive env)

/-- `session_update`, with `MAX_PKTSIZE` and `MAX_EXT_PKTSIZE`. -/
def sessionUpdate (env : Env) (data : List UInt8) (c : Cur) : Cur :=
  if c.peer.state ≠ .established then c
  else
    let maxsize := if c.peer.capa.neg.extMsg ≠ 0 then 65535 else 4096
    if data.length < 4 ∨ data.length > maxsize - 19 then c
    else c.trySend env (.update data) (startTimerKeepalive env)

/-- `session_req_hard_reset` -/
def sessionReqHardReset (errcode : ErrCode) (subcode : ℕ) : Bool :=
  match errcode with
  | .holdtimerexpired | .sendholdtimerexpired => false
  | .cease => !(subcode = Cease.connReject || subcode = Cease.otherChange ||
      subcode = Cease.collision || subcode = Cease.rsrcExhaust)
  | _ => true

/-- `session_notification` -/
def sessionNotification (env : Env) (errcode : ErrCode) (subcode : ℕ) (c : Cur) : Cur :=
  match c.peer.state with
  | .opensent | .openconfirm | .established =>
    let hard := c.peer.capa.neg.grestart.grnotification ≠ 0 && sessionReqHardReset errcode subcode
    c.trySend env (.notification errcode subcode hard) id
  | _ => c

/-- `session_rrefresh`; subtype 0 is a request, 1 and 2 are `BoRR` and `EoRR`. -/
def sessionRrefresh (env : Env) (aid : Aid) (subtype : ℕ) (c : Cur) : Cur :=
  if subtype ≠ 0 ∧ c.peer.capa.neg.enhancedRr = 0 then c
  else c.trySend env (.rrefresh aid subtype) id

/-- `session_neighbor_rrefresh` -/
def sessionNeighborRrefresh (env : Env) (c : Cur) : Cur :=
  if c.peer.capa.neg.refresh = 0 ∧ c.peer.capa.neg.enhancedRr = 0 then c
  else Aid.all.foldl (fun c aid =>
    if c.peer.capa.neg.mp aid ≠ 0 then c.sessionRrefresh env aid 0 else c) c

end Cur

end Bgpd.Session
