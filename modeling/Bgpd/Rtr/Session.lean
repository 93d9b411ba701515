import Bgpd.Rtr.Tables

/-!
# Sessions of the RTR Engine

Model of `struct rtr_session` and of `rtr_fsm` in `rtr_proto.c`, with `rtr_recalc` and the semaphore
of `rtr.c` that they use. A cache sends its data in exchanges; between `CACHE_RESPONSE` and
`END_OF_DATA` the session holds a lock, and as long as one session does `rtr_recalc` is put off.

How long a timer runs is left out, a timer is on or off. The texts of error reports, the values for
`bgpctl show rtr` and the buffers of the socket to the parent are left out as well.

## Layout

- `Pdu`, `OutPdu`: what is received and sent
- `Session`
- `Shared`, `Cur`: the engine while it handles a session
- `rtrFsm`
-/

namespace Bgpd.Rtr

open Rpki (AnyRoa)

/-! ## PDUs -/

/-- `enum rtr_pdu_type` -/
inductive PduType where
  | serialNotify | serialQuery | resetQuery | cacheResponse | ipv4Prefix | ipv6Prefix | endOfData
  | cacheReset | routerKey | errorReport | aspa
  | unknown
  deriving DecidableEq, Repr

def PduType.ofByte (type : UInt8) : PduType :=
  match type.toNat with
  | 0 => .serialNotify
  | 1 => .serialQuery
  | 2 => .resetQuery
  | 3 => .cacheResponse
  | 4 => .ipv4Prefix
  | 6 => .ipv6Prefix
  | 7 => .endOfData
  | 8 => .cacheReset
  | 9 => .routerKey
  | 10 => .errorReport
  | 11 => .aspa
  | _ => .unknown

/-- A PDU as `rtr_reader_callback` lets it through: the length in its header is its length.
    `sessionId` is the union in `struct rtr_header`. -/
structure Pdu where
  version : UInt8
  typeByte : UInt8
  sessionId : UInt16
  body : List UInt8
  /-- `RTR_MAX_PDU_SIZE` -/
  size : 8 + body.length ≤ 65535
  deriving DecidableEq

def Pdu.type (pdu : Pdu) : PduType := .ofByte pdu.typeByte

/-- All of its bytes. -/
def Pdu.bytes (pdu : Pdu) : List UInt8 :=
  let len := 8 + pdu.body.length
  [pdu.version, pdu.typeByte, UInt8.ofNat (pdu.sessionId.toNat / 2 ^ 8),
    UInt8.ofNat pdu.sessionId.toNat, 0, 0, UInt8.ofNat (len / 2 ^ 8), UInt8.ofNat len] ++ pdu.body

/-- `enum rtr_error` -/
inductive RtrError where
  | corruptData | internalError | noDataAvailable | invalidRequest | unsuppProtocolVers
  | unsuppPduType | unkRecWdrawl | dupRecRecv | unexpProtocolVers | aspaListErr | transportErr
  | orderingErr | cacheRestart | cacheShutdown
  deriving DecidableEq, Repr

/-- The PDUs that are sent. The session id of a serial query is 16 bits wide, the PDU in an error
    report is cut off after `RTR_MAX_PDU_ERROR_SIZE`. -/
inductive OutPdu where
  | resetQuery (version : ℕ)
  | serialQuery (version sessionId serial : ℕ)
  | errorReport (version : ℕ) (err : RtrError) (pdu : List UInt8)
  deriving DecidableEq, Repr

/-! ## Sessions -/

/-- `enum rtr_state` -/
inductive State where
  | closed | error | established | exchange | negotiation
  deriving DecidableEq, Repr

/-- `enum Timer`, as far as RTR sessions use them. -/
inductive Timer where
  | refresh | retry | expire | active
  deriving DecidableEq, Repr

/-- `enum reconf_action` -/
inductive ReconfAction where
  | reinit | keep | delete
  deriving DecidableEq, Repr

/-- The data of a session at an `END_OF_DATA`, with its serial. -/
structure Complete extends RpkiData where
  serial : ℕ

/-- `struct rtr_session`. `session_id` is -1 if there is none, `connOpen` says that `fd` is not -1.
    `complete` is a history variable that nothing reads. -/
structure Session extends RpkiData where
  id : ℕ
  minVersion : ℕ := 0
  version : ℕ := 1
  prevVersion : ℕ := 1
  timers : Timer → Bool := fun _ => false
  w : List OutPdu := []
  rbufs : List Pdu := []
  serial : ℕ := 0
  refresh : ℕ := 3600
  retry : ℕ := 600
  expire : ℕ := 7200
  sessionId : Option ℕ := none
  connOpen : Bool := false
  activeLock : Bool := false
  state : State := .closed
  reconfAction : ReconfAction := .reinit
  errored : Bool := false
  complete : Option Complete := none

/-- `RTR_DEFAULT_VERSION` -/
def rtrDefaultVersion : ℕ := 1

namespace Session

variable (rs : Session)

/-- `rtr_max_session_version` -/
def maxVersion : ℕ := if rtrDefaultVersion < rs.minVersion then rs.minVersion else rtrDefaultVersion

/-- `timer_set` -/
def timerSet (t : Timer) : Session := { rs with timers := Function.update rs.timers t true }

/-- `timer_stop` -/
def timerStop (t : Timer) : Session := { rs with timers := Function.update rs.timers t false }

/-- `rtr_reset_cache` -/
def resetCache : Session :=
  { rs.timerStop .expire with sessionId := none, roaSet := [], aspa := [], complete := none }

/-- A PDU is queued. -/
def send (pdu : OutPdu) : Session := { rs with w := rs.w ++ [pdu] }

/-- A session id as an `uint16_t`. -/
def sessionId16 : ℕ := rs.sessionId.getD 65535

/-- `rtr_send_serial_query` -/
def sendSerialQuery : Session := rs.send (.serialQuery rs.version rs.sessionId16 rs.serial)

/-- A query that fits what is known of the cache. -/
def sendQuery : Session :=
  if rs.sessionId.isNone then rs.send (.resetQuery rs.version) else rs.sendSerialQuery

/-- The data at an `END_OF_DATA` is complete. -/
def completed : Session := { rs with complete := some ⟨rs.toRpkiData, rs.serial⟩ }

/-- `active_lock` as a number. -/
def lock : ℤ := if rs.activeLock then 1 else 0

end Session

/-! ## The engine -/

/-- The reasons for `fatalx`. -/
inductive RtrFatal where
  /-- "rtr recalc semaphore underflow" -/
  | semUnderflow
  deriving DecidableEq, Repr

/-- The messages to the parent about sockets. -/
inductive MainMsg where
  | socketSetup (id : ℕ)
  | socketTeardown (id : ℕ)
  deriving DecidableEq, Repr

/-- What a call of `rtr_recalc` sent, and the configuration and the sessions it was made from. -/
structure Recalc where
  conf : Static
  sources : List Session
  msgs : List RdeMsg

/-- What the sessions have in common: `rtr_recalc_semaphore`, `conf`, `nconf` and the messages that
    were sent. -/
structure Shared where
  sem : ℤ := 0
  conf : Static := {}
  nconf : Option Static := none
  sent : List Recalc := []
  main : List MainMsg := []

/-- `rtr_recalc` -/
def Shared.recalc (sh : Shared) (sources : List Session) : Shared :=
  if 0 < sh.sem then sh
  else
    { sh with sent := sh.sent ++
        [⟨sh.conf, sources, recalcMsgs sh.conf (sources.map Session.toRpkiData)⟩] }

/-- The engine while it handles the session `rs`, with the sessions before and behind it in the
    list. A session that is deleted is no longer listed. -/
structure Cur extends Shared where
  before : List Session := []
  rs : Session
  after : List Session := []
  listed : Bool := true

namespace Cur

variable (c : Cur)

/-- The list of sessions. -/
def sources : List Session := c.before ++ (if c.listed then [c.rs] else []) ++ c.after

def modify (f : Session → Session) : Cur := { c with rs := f c.rs }

def recalc : Cur := { c with toShared := c.toShared.recalc c.sources }

/-- `rtr_sem_acquire` -/
def semAcquire : Cur := { c with sem := c.sem + c.rs.lock }

/-- `rtr_sem_release` -/
def semRelease : Except RtrFatal Cur :=
  let sem := c.sem - c.rs.lock
  if sem < 0 then .error .semUnderflow else .ok { c with sem := sem }

/-- The connection is closed. The state of a negotiation is kept. -/
def closeConn : Cur :=
  let c := if c.rs.connOpen then
      { c.modify (fun rs => { rs with w := [], rbufs := [], connOpen := false }) with
        main := c.main ++ [.socketTeardown c.rs.id] }
    else c
  -- try to reopen session
  c.modify fun rs => { rs.timerSet .retry with
    errored := true
    state := if rs.state = .negotiation then .negotiation else .closed }

/-- `RTR_EVNT_RESET_AND_CLOSE` with `reset`, or `RTR_EVNT_CON_CLOSE`. The cache is reset after an
    error or if the connection is reset during a delta exchange. -/
def conClose (reset : Bool) : Except RtrFatal Cur :=
  if reset || c.rs.activeLock then do
    let c ← (c.modify Session.resetCache).semRelease
    return (c.modify fun rs => { rs with activeLock := false }).recalc.closeConn
  else .ok c.closeConn

/-- `rtr_send_error` with `RTR_EVNT_SEND_ERROR`. -/
def sendError (err : RtrError) (pdu : List UInt8) : Cur :=
  let c := c.modify fun rs => rs.send (.errorReport rs.version err (pdu.take 256))
  (c.modify Session.resetCache).recalc.modify fun rs => { rs with state := .error }

/-- The lock is released, then the tables are sent. -/
def releaseLock : Except RtrFatal Cur := do
  let c ← c.semRelease
  return c.recalc.modify fun rs => { rs with activeLock := false }

end Cur

/-- `enum rtr_event`, less `RTR_EVNT_SEND_ERROR`. -/
inductive Event where
  | start | conOpen | conClose | timerRefresh | timerRetry | timerExpire | timerActive
  | serialNotify | cacheResponse | endOfData | cacheReset | noData | resetAndClose
  | unsuppProtoVersion | negotiationDone
  deriving DecidableEq, Repr

/-- `RTR_EVNT_START` and `RTR_EVNT_TIMER_RETRY` -/
def Cur.retry (c : Cur) : Except RtrFatal Cur :=
  match c.rs.state with
  | .error => c.conClose false
  | .closed | .negotiation =>
    .ok { c.modify (·.timerSet .retry) with main := c.main ++ [.socketSetup c.rs.id] }
  | .established => .ok (c.modify Session.sendQuery)
  | .exchange => .ok c

/-- `rtr_fsm` -/
def rtrFsm (c : Cur) : Event → Except RtrFatal Cur
  | .unsuppProtoVersion =>
    if c.rs.prevVersion = c.rs.version ∨ c.rs.version < c.rs.minVersion then
      -- can't downgrade anymore, fail connection
      .ok
        ((c.modify fun rs => { rs with version := rs.maxVersion }).sendError .unsuppProtocolVers [])
    else .ok (c.modify Session.sendQuery)
  | .resetAndClose => c.conClose true
  | .conClose => c.conClose false
  | .start | .timerRetry => c.retry
  | .conOpen =>
    .ok (c.modify fun rs => { rs.timerStop .retry with state := .negotiation }.sendQuery)
  -- schedule a refresh after a quick wait
  | .serialNotify => .ok (c.modify (·.timerSet .refresh))
  | .timerRefresh => .ok (c.modify Session.sendSerialQuery)
  | .timerExpire => .ok (c.modify Session.resetCache).recalc
  | .timerActive => c.releaseLock
  | .cacheResponse =>
    -- prevent rtr_recalc from running while active
    .ok (c.modify fun rs =>
      { (((rs.timerStop .refresh).timerStop .retry).timerSet .active) with
        state := .exchange, activeLock := true }).semAcquire
  | .endOfData => do
    let c ← (c.modify fun rs =>
      { (((rs.completed.timerSet .refresh).timerSet .expire).timerStop .active) with
        state := .established }).releaseLock
    return c.modify fun rs => { rs with errored := false }
  | .cacheReset => .ok ((c.modify Session.resetCache).recalc.modify (·.timerSet .retry))
  | .noData =>
    .ok (c.modify fun rs => { ((rs.timerSet .retry).timerStop .refresh) with
      state := .established })
  | .negotiationDone => .ok (c.modify fun rs => { rs with state := .established })

end Bgpd.Rtr
