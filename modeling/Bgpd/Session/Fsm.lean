import Bgpd.Session.Open

/-!
# The Finite State Machine

Model of `bgp_fsm` with one definition for each state, of the functions that raise its events for
messages of the neighbor, and of `session_connect`, `session_accept` and `session_stop`. What the
sockets do is part of the arguments.

## Main definitions

- `Cur.fsm`: `bgp_fsm`
- `Cur.processMsg`: one message in `session_process_msg`
- `Cur.sessionDispatchMsg`: `session_dispatch_msg`
- `Cur.acceptOpen`, `Cur.sessionStop`
-/

namespace Bgpd.Session

open Rde (Aid)

namespace FsmErr

/-- `ERR_FSM_UNEX_OPENSENT` -/
def unexOpensent : ℕ := 1
/-- `ERR_FSM_UNEX_OPENCONFIRM` -/
def unexOpenconfirm : ℕ := 2
/-- `ERR_FSM_UNEX_ESTABLISHED` -/
def unexEstablished : ℕ := 3

end FsmErr

/-- `ERR_HDR_LEN` -/
def hdrLen : ℕ := 2
/-- `ERR_RR_INV_LEN` -/
def rrInvLen : ℕ := 1

/-- What `ibuf_read` does: it fails, the neighbor closed the connection, `parse_header` rejects a
    header with an error of the given subcode, or there is data or nothing to read. -/
inductive ReadResult where
  | error | closed
  | badHeader (subcode : ℕ)
  | done
  deriving DecidableEq, Repr

/-- `revents` of a connection, and what the socket does when it is used: `soError` is the error of
    `getsockopt`, `queued` tells whether there is something to write. -/
structure Revents where
  pollin : Bool := false
  pollout : Bool := false
  pollhup : Bool := false
  /-- `POLLERR` or `POLLNVAL` -/
  pollerr : Bool := false
  soError : Bool := false
  queued : Bool := false
  writeFails : Bool := false
  read : ReadResult := .done
  deriving DecidableEq, Repr

namespace Cur

/-! ## Connections -/

/-- `EVNT_CON_OPEN` in `STATE_CONNECT` and `STATE_ACTIVE`. -/
def conOpen (env : Env) (c : Cur) : Cur :=
  let c := (c.sessionOpen env).timerStop .connectRetry
  let c := c.modify fun p => { p with holdtime := intervalHoldInitial }
  (c.startTimerHoldtime env).changeState env .opensent .conOpen

/-- `EVNT_CON_OPENFAIL` in `STATE_CONNECT` and `STATE_ACTIVE`. -/
def conOpenfail (env : Env) (c : Cur) : Cur :=
  ((c.timerSet env.now .connectRetry c.peer.conf.connectretry).sessionClose).changeState env .active
    .conOpenfail

/-- `session_connect`, which is only called in `STATE_CONNECT`. -/
def sessionConnect (env : Env) (c : Cur) : Cur :=
  if c.peer.fd.isSome then c
  else match env.connect with
    | .noSocket => c.conOpenfail env
    | .failed fd => (c.modify fun p => { p with fd := some fd }).conOpenfail env
    | .inProgress fd => c.modify fun p => { p with fd := some fd }
    | .connected fd => (c.modify fun p => { p with fd := some fd }).conOpen env

/-! ## Messages of the neighbor -/

/-- The event of `parse_notification`. -/
def notificationEvent (neg : Capabilities) (msg : NotificationMsg) : Event :=
  if neg.grestart.grnotification = 0 then .rcvdNotification msg
  -- RFC8538: check for hard-reset or graceful notification
  else if msg.errcode = .cease ∧ msg.subcode = Cease.hardReset then .rcvdNotification msg
  else .rcvdGraceNotification

/-- `parse_notification` -/
def parseNotification (env : Env) (msg : NotificationMsg) (c : Cur) : Cur :=
  c.changeState env .idle (notificationEvent c.peer.capa.neg msg)

/-- `EVNT_RCVD_OPEN` in `STATE_OPENSENT`. -/
def rcvdOpen (env : Env) (msg : OpenMsg) (c : Cur) : Cur :=
  match c.parseOpen env msg with
  -- parse_open calls change_state itself on failure
  | (c, false) => c
  | (c, true) => (c.sessionKeepalive env).changeState env .openconfirm (.rcvdOpen msg)

/-- A notification is sent and the session ends. -/
def notifyIdle (env : Env) (errcode : ErrCode) (subcode : ℕ) (event : Event) (c : Cur) : Cur :=
  (c.sessionNotification env errcode subcode).changeState env .idle event

/-! ## The states -/

/-- The timers that `EVNT_START` stops in `STATE_IDLE`. -/
def idleStop (c : Cur) : Cur :=
  (((c.timerStop .hold).timerStop .sendHold).timerStop .keepalive).timerStop .idleHold

/-- `EVNT_START` in `STATE_IDLE`. -/
def idleStart (env : Env) (c : Cur) : Cur :=
  let c := c.idleStop
  if !c.peer.dependOk then c.timerStop .connectRetry
  else if c.peer.conf.passive || c.peer.conf.template then
    (c.changeState env .active .start).timerStop .connectRetry
  else if c.peer.prevState = .none ∨ c.peer.idleHoldTime = intervalIdleHoldInitial then
    let holdtime := if c.peer.prevState = .none then sessionClearDelay
      else intervalIdleHoldInitial
    (c.changeState env .active .start).timerSet env.now .connectRetry holdtime
  else
    let c := c.changeState env .connect .start
    (c.timerSet env.now .connectRetry c.peer.conf.connectretry).sessionConnect env

/-- `STATE_IDLE` -/
def fsmIdle (env : Env) (event : Event) (c : Cur) : Cur :=
  match event with
  | .start => c.idleStart env
  | .stop => c.timerStop .idleHold
  | _ => c

/-- `STATE_CONNECT` -/
def fsmConnect (env : Env) (event : Event) (c : Cur) : Cur :=
  match event with
  | .start => c
  | .conOpen => c.conOpen env
  | .conOpenfail => c.conOpenfail env
  | .timerConnretry =>
    (c.timerSet env.now .connectRetry c.peer.conf.connectretry).sessionConnect env
  | _ => c.changeState env .idle event

/-- The neighbor is connected to in `STATE_ACTIVE`. -/
def activeConnect (env : Env) (event : Event) (c : Cur) : Cur :=
  ((c.timerSet env.now .connectRetry c.peer.holdtime).changeState env .connect
    event).sessionConnect env

/-- `STATE_ACTIVE` -/
def fsmActive (env : Env) (event : Event) (c : Cur) : Cur :=
  match event with
  | .start =>
    if !c.peer.dependOk || c.peer.conf.template then c else c.activeConnect env event
  | .conOpen => c.conOpen env
  | .conOpenfail => c.conOpenfail env
  | .timerConnretry => c.activeConnect env event
  | _ => c.changeState env .idle event

/-- `STATE_OPENSENT` -/
def fsmOpensent (env : Env) (event : Event) (c : Cur) : Cur :=
  match event with
  | .start => c
  | .stop | .conFatal => c.changeState env .idle event
  | .conClosed =>
    let c := c.sessionClose
    (c.timerSet env.now .connectRetry c.peer.conf.connectretry).changeState env .active event
  | .timerHoldtime => c.notifyIdle env .holdtimerexpired 0 event
  | .timerSendhold => c.notifyIdle env .sendholdtimerexpired 0 event
  | .rcvdOpen msg => c.rcvdOpen env msg
  | .rcvdNotification msg => c.parseNotification env msg
  | _ => c.notifyIdle env .fsm FsmErr.unexOpensent event

/-- `STATE_OPENCONFIRM` -/
def fsmOpenconfirm (env : Env) (event : Event) (c : Cur) : Cur :=
  match event with
  | .start => c
  | .stop | .conClosed | .conFatal => c.changeState env .idle event
  | .timerHoldtime => c.notifyIdle env .holdtimerexpired 0 event
  | .timerSendhold => c.notifyIdle env .sendholdtimerexpired 0 event
  | .timerKeepalive => c.sessionKeepalive env
  | .rcvdKeepalive => (c.startTimerHoldtime env).changeState env .established event
  | .rcvdNotification msg => c.parseNotification env msg
  | _ => c.notifyIdle env .fsm FsmErr.unexOpenconfirm event

/-- `STATE_ESTABLISHED` -/
def fsmEstablished (env : Env) (event : Event) (c : Cur) : Cur :=
  match event with
  | .start => c
  | .stop | .conClosed | .conFatal => c.changeState env .idle event
  | .timerHoldtime => c.notifyIdle env .holdtimerexpired 0 event
  | .timerSendhold => c.notifyIdle env .sendholdtimerexpired 0 event
  | .timerKeepalive => c.sessionKeepalive env
  | .rcvdKeepalive => c.startTimerHoldtime env
  | .rcvdUpdate data => (c.startTimerHoldtime env).imsgRde (.update data)
  | .rcvdNotification msg => c.parseNotification env msg
  | _ => c.notifyIdle env .fsm FsmErr.unexEstablished event

/-- `bgp_fsm` -/
def fsm (env : Env) (event : Event) (c : Cur) : Cur :=
  match c.peer.state with
  | .none => c
  | .idle => c.fsmIdle env event
  | .connect => c.fsmConnect env event
  | .active => c.fsmActive env event
  | .opensent => c.fsmOpensent env event
  | .openconfirm => c.fsmOpenconfirm env event
  | .established => c.fsmEstablished env event

/-! ## Reading -/

/-- A message that ends the session: a notification and `EVNT_CON_FATAL`. -/
def badMessage (env : Env) (errcode : ErrCode) (subcode : ℕ) (c : Cur) : Cur :=
  (c.sessionNotification env errcode subcode).fsm env .conFatal

/-- `session_handle_rrefresh` behind the last checks of `parse_rrefresh`. -/
def sessionHandleRrefresh (msg : RrefreshMsg) (subtype : ℕ) (c : Cur) : Cur :=
  match msg.aid with
  | none => c
  | some aid =>
    if c.peer.capa.neg.refresh = 0 ∧ c.peer.capa.neg.enhancedRr = 0 then c
    else c.imsgRde (.refresh aid subtype)

/-- `parse_rrefresh` -/
def parseRrefresh (env : Env) (msg : RrefreshMsg) (c : Cur) : Cur :=
  -- check subtype if peer announced enhanced route refresh
  if c.peer.capa.neg.enhancedRr ≠ 0 then
    if msg.subtype = 0 then
      -- no ORF support, so no oversized RREFRESH msgs
      if msg.exact then c.sessionHandleRrefresh msg 0 else c.badMessage env .header hdrLen
    else if msg.subtype = 1 ∨ msg.subtype = 2 then
      if msg.exact then c.sessionHandleRrefresh msg msg.subtype
      else c.badMessage env .rrefresh rrInvLen
    else c
  -- force subtype to default
  else c.sessionHandleRrefresh msg 0

/-- One message in `session_process_msg`. -/
def processMsg (env : Env) (msg : InMsg) (c : Cur) : Cur :=
  match msg with
  | .open msg => c.fsm env (.rcvdOpen msg)
  | .update data => c.fsm env (.rcvdUpdate data)
  | .notification msg => c.fsm env (.rcvdNotification msg)
  | .keepalive => c.fsm env .rcvdKeepalive
  | .rrefresh msg => c.parseRrefresh env msg

/-- The part of `session_dispatch_msg` that reads. -/
def dispatchRead (env : Env) (r : Revents) (c : Cur) : Cur :=
  if c.peer.fd.isSome && r.pollin then
    match r.read with
    | .error => if c.peer.state = .idle then c else c.fsm env .conFatal
    | .badHeader subcode => c.badMessage env .header subcode
    | .closed => c.fsm env .conClosed
    | .done => c
  else c

/-- `session_dispatch_msg` -/
def sessionDispatchMsg (env : Env) (r : Revents) (c : Cur) : Cur :=
  if c.peer.state = .connect then
    if r.pollout then
      if r.pollin && r.soError then c.fsm env .conOpenfail else c.fsm env .conOpen
    else if r.pollhup then c.fsm env .conOpenfail
    else if r.pollerr then c.fsm env .conFatal
    else c
  else if r.pollhup then c.fsm env .conClosed
  else if r.pollerr then c.fsm env .conFatal
  else if r.pollout && r.queued then
    -- there is no writing without a connection
    if r.writeFails || c.peer.fd.isNone then c.fsm env .conFatal
    else (c.startTimerSendholdtime env).dispatchRead env r
  else c.dispatchRead env r

/-! ## Accepting and stopping -/

/-- `session_accept` from the label `open` on; `setupFails` stands for the checks of the new
    connection before `fd` is stored, `sockFails` for `session_setup_socket`. -/
def acceptOpen (env : Env) (fd : ℕ) (setupFails sockFails : Bool) (c : Cur) : Cur :=
  if setupFails then c
  else
    let c := c.modify fun p => { p with fd := some fd }
    if sockFails then c else c.fsm env .conOpen

/-- `session_accept` for the peer that `getpeerbyip` found. -/
def sessionAccept (env : Env) (fd : ℕ) (setupFails sockFails : Bool) (c : Cur) : Cur :=
  match c.peer.state with
  | .connect => c.sessionClose.acceptOpen env fd setupFails sockFails
  | .active => if c.peer.fd.isSome then c else c.acceptOpen env fd setupFails sockFails
  | .established =>
    if c.peer.capa.neg.grestart.restart = 2 then
      -- first do the graceful restart dance, then part of the open dance
      (c.changeState env .connect .conClosed).acceptOpen env fd setupFails sockFails
    else c
  | _ => c

/-- `session_stop` -/
def sessionStop (env : Env) (subcode : ℕ) (c : Cur) : Cur :=
  (c.sessionNotification env .cease subcode).fsm env .stop

end Cur

end Bgpd.Session
