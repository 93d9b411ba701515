import Bgpd.Rtr.Proto

/-!
# The RTR Engine

Model of the functions of `rtr_proto.c` and `rtr.c` that call `rtr_fsm`: `rtr_dispatch_msg`,
`rtr_check_events`, `rtr_open`, the handlers of the messages from the parent and the expire timer.
One step is one message, one timer, one change of a socket, or one of the PDUs of a read. PDUs of a
read are handled one after the other before anything else happens.

`rtr_shutdown` is left out.

## Layout

- `Engine`, `Engine.withSession`
- `rtrConfigMerge`: the end of a reload
- `Input`, `Engine.step`: the system
-/

namespace Bgpd.Rtr

open Lib
open Rpki (AnyRoa)

/-- The engine. `reading` is the session whose PDUs are handled. -/
structure Engine extends Shared where
  rtrs : List Session := []
  reading : Option ℕ := none

namespace Engine

/-- The split of the list at a session. -/
def focus (e : Engine) (id : ℕ) : Option Cur :=
  match e.rtrs.dropWhile (·.id ≠ id) with
  | [] => none
  | rs :: after =>
    some { e.toShared with before := e.rtrs.takeWhile (·.id ≠ id), rs := rs, after := after }

/-- The list with a session that was handled. -/
def put (e : Engine) (c : Cur) : Engine :=
  { e with toShared := c.toShared, rtrs := c.before ++ c.rs :: c.after }

/-- A session is handled, if `rtr_get` finds one. -/
def withSession (e : Engine) (id : ℕ) (f : Cur → Except RtrFatal Cur) : Except RtrFatal Engine :=
  match e.focus id with
  | none => .ok e
  | some c => (f c).map e.put

/-- `rtr_recalc` -/
def recalc (e : Engine) : Engine := { e with toShared := e.toShared.recalc e.rtrs }

end Engine

/-! ## Reloads -/

/-- `rtr_new`. In the source `calloc` leaves `fd` 0 and not -1: a close before the first connection
    closes descriptor 0 there and sends `IMSG_SOCKET_TEARDOWN`. Here a new session has no connection
    and such a close sends nothing. -/
def newSession (id minVersion : ℕ) : Session :=
  let rs : Session := { id := id, minVersion := minVersion }
  { rs.timerSet .expire with version := rs.maxVersion, prevVersion := rs.maxVersion }

/-- `rtr_free` -/
def rtrFree (c : Cur) : Except RtrFatal Cur := (c.modify Session.resetCache).conClose false

/-- `rtr_config_merge`: sessions that are no longer configured are removed. -/
def rtrConfigMerge (sh : Shared) (kept : List Session) :
    List Session → Except RtrFatal (Shared × List Session)
  | [] => .ok (sh, kept)
  | rs :: rest =>
    if rs.reconfAction = .delete then do
      let c ← rtrFree { sh with before := kept, rs := rs, after := rest, listed := false }
      rtrConfigMerge c.toShared kept rest
    else rtrConfigMerge sh (kept ++ [rs]) rest

/-- `rtr_open`. A session that is not waiting for the connection is closed first. -/
def rtrOpen (c : Cur) : Except RtrFatal Cur := do
  let c ← if c.rs.state ≠ .closed ∧ c.rs.state ≠ .negotiation then rtrFsm c .conClose else .ok c
  let c := if c.rs.state = .closed then
      c.modify fun rs => { rs with version := rs.maxVersion, prevVersion := rs.maxVersion }
    else c
  rtrFsm (c.modify fun rs => { rs with connOpen := true }) .conOpen

/-! ## The system -/

/-- What may happen to the engine. -/
inductive Input where
  /-- `IMSG_RECONF_CONF` -/
  | reconfConf
  /-- `IMSG_RECONF_ROA_ITEM` -/
  | roaItem (roa : AnyRoa) (expires : ℕ)
  /-- `IMSG_RECONF_ASPA` to `IMSG_RECONF_ASPA_DONE` -/
  | aspaItem (aspa : AspaSet) (expires : ℕ)
  /-- `IMSG_RECONF_RTR_CONFIG` -/
  | rtrConfig (id minVersion : ℕ)
  /-- `IMSG_RECONF_DONE` -/
  | reconfDone (now : ℕ)
  /-- `IMSG_SOCKET_SETUP` with a socket. -/
  | socketSetup (id : ℕ)
  /-- The expire timer of the static sets. -/
  | expire (now : ℕ)
  /-- `POLLHUP`, `POLLERR` or `POLLNVAL`, a write error, or the end of the data -/
  | hangup (id : ℕ)
  /-- `POLLOUT`: the number of PDUs that were written -/
  | write (id n : ℕ)
  /-- `ibuf_read` fails -/
  | readError (id : ℕ)
  /-- The PDUs that were read. A header with a bad length is the last that is read. -/
  | read (id : ℕ) (pdus : List Pdu) (bad : Option (List UInt8))
  /-- The loop over the PDUs that were read. -/
  | process
  | timer (id : ℕ) (t : Timer)

/-- `RTR_EVNT_TIMER_REFRESH` to `RTR_EVNT_TIMER_ACTIVE` -/
def Timer.event : Timer → Event
  | .refresh => .timerRefresh
  | .retry => .timerRetry
  | .expire => .timerExpire
  | .active => .timerActive

/-- Sessions that poll for incoming data. -/
def Session.pollsIn (rs : Session) : Bool :=
  rs.connOpen && (rs.state = .established || rs.state = .exchange || rs.state = .negotiation)

/-- `POLLOUT` in `rtr_dispatch_msg` -/
def rtrWrite (n : ℕ) (c : Cur) : Except RtrFatal Cur :=
  let c := c.modify fun rs => { rs with w := rs.w.drop n }
  if c.rs.state = .error ∧ c.rs.w = [] then rtrFsm c .conClose else .ok c

/-- A timer is stopped and its event handled. -/
def rtrTimer (t : Timer) (c : Cur) : Except RtrFatal Cur :=
  if c.rs.timers t then rtrFsm (c.modify (·.timerStop t)) t.event else .ok c

/-- `ibuf_read` in `rtr_dispatch_msg`, with `rtr_reader_callback` for a bad length. -/
def rtrRead (pdus : List Pdu) (bad : Option (List UInt8)) (c : Cur) : Except RtrFatal Cur :=
  let c := c.modify fun rs => { rs with rbufs := rs.rbufs ++ pdus }
  .ok (bad.elim c fun hdr => c.sendError .corruptData hdr)

namespace Engine

/-- `IMSG_RECONF_DONE` -/
def reconfDone (e : Engine) (now : ℕ) : Except RtrFatal Engine :=
  match e.nconf with
  -- got IMSG_RECONF_DONE but no config
  | none => .ok e
  | some nconf => do
    let (sh, rtrs) ← rtrConfigMerge { e.toShared with conf := nconf } [] e.rtrs
    let sh := { sh with conf := (sh.conf.expireRoas now).expireAspa now, nconf := none }
    return recalc { e with toShared := sh, rtrs := rtrs }

/-- The expire timer: if any change is done recalculate. -/
def expireStatic (e : Engine) (now : ℕ) : Engine :=
  let conf := e.conf.expireRoas now
  let e' := { e with conf := conf }
  let e' := if conf.roa.length < e.conf.roa.length then e'.recalc else e'
  let conf := e'.conf.expireAspa now
  let e'' := { e' with conf := conf }
  if conf.aspa.length < e'.conf.aspa.length then e''.recalc else e''

/-- `IMSG_RECONF_RTR_CONFIG`: a new session, or one that is kept. -/
def rtrConfig (e : Engine) (id minVersion : ℕ) : Except RtrFatal Engine :=
  if (e.focus id).isSome then
    e.withSession id fun c =>
      .ok (c.modify fun rs => { rs with minVersion := minVersion, reconfAction := .keep })
  else
    ({ e with rtrs := e.rtrs ++ [newSession id minVersion] } : Engine).withSession id fun c =>
      rtrFsm c .start

/-- The next PDU of the session that is read, or the end of the loop. -/
def process (e : Engine) (id : ℕ) : Except RtrFatal Engine :=
  match e.focus id with
  | none => .ok { e with reading := none }
  | some c =>
    match c.rs.rbufs with
    | [] => .ok { e with reading := none }
    | pdu :: rest =>
      (rtrProcessMsg (c.modify fun rs => { rs with rbufs := rest }) pdu).map e.put

/-- A step while no session is read. -/
def idleStep (e : Engine) : Input → Except RtrFatal Engine
  | .reconfConf =>
    .ok { e with
      nconf := some {}
      rtrs := e.rtrs.map fun rs => { rs with reconfAction := .delete } }
  | .roaItem roa expires => .ok { e with nconf := e.nconf.map (·.addRoa roa expires) }
  | .aspaItem aspa expires => .ok { e with nconf := e.nconf.map (·.addAspa aspa expires) }
  | .rtrConfig id minVersion => e.rtrConfig id minVersion
  | .reconfDone now => e.reconfDone now
  | .socketSetup id => e.withSession id rtrOpen
  | .expire now => .ok (e.expireStatic now)
  | .hangup id => e.withSession id fun c => rtrFsm c .conClose
  | .write id n => e.withSession id (rtrWrite n)
  -- if already in error state, ignore
  | .readError id =>
    e.withSession id fun c => if c.rs.state = .error then .ok c else rtrFsm c .conClose
  | .read id pdus bad =>
    match e.focus id with
    | none => .ok e
    | some c =>
      if c.rs.pollsIn then
        (rtrRead pdus bad c).map fun c =>
          { e.put c with reading := if bad.isNone then some id else none }
      else .ok e
  | .process => .ok e
  | .timer id t => e.withSession id (rtrTimer t)

/-- One step of the engine; an error is a call of `fatalx`. -/
def step (e : Engine) (i : Input) : Except RtrFatal Engine :=
  match e.reading with
  | none => e.idleStep i
  | some id =>
    match i with
    | .process => e.process id
    -- the PDUs are handled first
    | _ => .ok e

end Engine

/-- The step function for runs: the program ends at a `fatalx`. -/
def rtrStep (e : Engine) (i : Input) : Option Engine := (e.step i).toOption

end Bgpd.Rtr
