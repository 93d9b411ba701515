import Bgpd.Rde.Update
import Bgpd.Session.Timer

/-!
# Data Model of the Session Engine

The records of `session.h` and `bgpd.h` that the session engine works on. The `int8_t` fields of
`struct capabilities` that can be 2 (enforced) are natural numbers, bit fields are records of
flags. BGP messages are given after their type-length-value encoding was taken apart.

Fields that no modelled function reads (statistics, log texts, the addresses of a connection)
are left out.

## Main definitions

- `Peer`: `struct peer`
- `OpenMsg`, `InMsg`, `BgpMsg`: messages of the neighbor and to it
- `RdeMsg`, `Out`: what the engine sends to the RDE and to the parent
-/

namespace Bgpd.Session

open Rde (Aid Role)

/-! ## Constants -/

/-- `INTERVAL_HOLD_INITIAL` -/
def intervalHoldInitial : ℕ := 240
/-- `INTERVAL_HOLD` -/
def intervalHold : ℕ := 90
/-- `INTERVAL_IDLE_HOLD_INITIAL` -/
def intervalIdleHoldInitial : ℕ := 30
/-- `INTERVAL_HOLD_DEMOTED` -/
def intervalHoldDemoted : ℕ := 60
/-- `INTERVAL_STALE` -/
def intervalStale : ℕ := 180
/-- `INTERVAL_SESSION_DOWN` -/
def intervalSessionDown : ℕ := 3600
/-- `MAX_IDLE_HOLD` -/
def maxIdleHold : ℕ := 3600
/-- `SESSION_CLEAR_DELAY` -/
def sessionClearDelay : ℕ := 5
/-- `AS_TRANS` -/
def asTrans : ℕ := 23456

/-! ## Enumerations -/

/-- `enum session_state` -/
inductive State where
  | none | idle | connect | active | opensent | openconfirm | established
  deriving DecidableEq, Repr

/-- The number of the state. -/
def State.val : State → ℕ
  | none => 0
  | idle => 1
  | connect => 2
  | active => 3
  | opensent => 4
  | openconfirm => 5
  | established => 6

/-- `enum reconf_action`; peers are never `RECONF_RELOAD`. -/
inductive ReconfAction where
  | none | keep | reinit | delete
  deriving DecidableEq, Repr

/-- `enum enforce_as` -/
inductive EnforceAs where
  | undef | off | on
  deriving DecidableEq, Repr

/-- `enum err_codes`. A neighbor may send any other number. -/
inductive ErrCode where
  | header | open | update | holdtimerexpired | fsm | cease | rrefresh | sendholdtimerexpired
  | unknown (code : ℕ)
  deriving DecidableEq, Repr

namespace Cease

/-- `ERR_CEASE_MAX_PREFIX` -/
def maxPrefix : ℕ := 1
/-- `ERR_CEASE_ADMIN_DOWN` -/
def adminDown : ℕ := 2
/-- `ERR_CEASE_PEER_UNCONF` -/
def peerUnconf : ℕ := 3
/-- `ERR_CEASE_ADMIN_RESET` -/
def adminReset : ℕ := 4
/-- `ERR_CEASE_CONN_REJECT` -/
def connReject : ℕ := 5
/-- `ERR_CEASE_OTHER_CHANGE` -/
def otherChange : ℕ := 6
/-- `ERR_CEASE_COLLISION` -/
def collision : ℕ := 7
/-- `ERR_CEASE_RSRC_EXHAUST` -/
def rsrcExhaust : ℕ := 8
/-- `ERR_CEASE_HARD_RESET` -/
def hardReset : ℕ := 9
/-- `ERR_CEASE_MAX_SENT_PREFIX` -/
def maxSentPrefix : ℕ := 10

end Cease

/-! ## Capabilities -/

/-- The bits of `grestart.flags`. -/
structure GrFlags where
  present : Bool := false
  restart : Bool := false
  forward : Bool := false
  restarting : Bool := false
  finished : Bool := false
  deriving DecidableEq, Repr, Inhabited

/-- A restart of the family is going on: `CAPA_GR_RESTARTING` without `CAPA_GR_FINISHED`. -/
def GrFlags.pending (f : GrFlags) : Bool := f.restarting && !f.finished

/-- `grestart` of `struct capabilities` -/
structure Grestart where
  timeout : ℕ := 0
  flags : Aid → GrFlags := fun _ => {}
  restart : ℕ := 0
  grnotification : ℕ := 0
  deriving DecidableEq, Inhabited

/-- The bits of `add_path`. -/
structure AddPath where
  recv : Bool := false
  send : Bool := false
  recvEnforce : Bool := false
  sendEnforce : Bool := false
  deriving DecidableEq, Repr, Inhabited

/-- `struct capabilities`. The entries at `AID_UNSPEC` have fields of their own: `mpUnknown` is
    set for a family that is not known, `addPathAny` collects the bits of all families. -/
structure Capabilities where
  grestart : Grestart := {}
  mp : Aid → ℕ := fun _ => 0
  mpUnknown : Bool := false
  addPath : Aid → AddPath := fun _ => {}
  addPathAny : AddPath := {}
  extNh : Aid → ℕ := fun _ => 0
  refresh : ℕ := 0
  as4byte : ℕ := 0
  enhancedRr : ℕ := 0
  policy : ℕ := 0
  extMsg : ℕ := 0
  deriving DecidableEq, Inhabited

/-! ## Peers -/

/-- `enum auth_method` -/
inductive AuthMethod where
  | none | md5sig | ipsecManualEsp | ipsecManualAh | ipsecIkeEsp | ipsecIkeAh
  deriving DecidableEq, Repr

/-- `enum auth_alg` -/
inductive AuthAlg where
  | none | sha1hmac | md5hmac
  deriving DecidableEq, Repr

/-- `enum auth_enc_alg` -/
inductive AuthEncAlg where
  | none | threeDesCbc | aes
  deriving DecidableEq, Repr

/-- `struct auth_config`. A key is the part of its array that its length names. The session engine
    is told the method only, but `merge_peers` copies all of it. -/
structure AuthConf where
  method : AuthMethod := .none
  md5key : List UInt8 := []
  authKeyIn : List UInt8 := []
  authKeyOut : List UInt8 := []
  encKeyIn : List UInt8 := []
  encKeyOut : List UInt8 := []
  spiIn : ℕ := 0
  spiOut : ℕ := 0
  authAlgIn : AuthAlg := .none
  authAlgOut : AuthAlg := .none
  encAlgIn : AuthEncAlg := .none
  encAlgOut : AuthEncAlg := .none
  deriving DecidableEq, Repr

/-- `struct peer_config` -/
structure PeerConf where
  id : ℕ
  remoteAddr : Rde.BgpdAddr := {}
  remoteMasklen : ℕ := 32
  capabilities : Capabilities := {}
  ifDepend : String := ""
  demoteGroup : String := ""
  remoteAs : ℕ := 0
  localAs : ℕ := 0
  localShortAs : ℕ := 0
  enforceAs : EnforceAs := .undef
  role : Role := .none
  maxPrefixRestart : ℕ := 0
  maxOutPrefixRestart : ℕ := 0
  holdtime : ℕ := 0
  minHoldtime : ℕ := 0
  connectretry : ℕ := 0
  staletime : ℕ := 0
  template : Bool := false
  ebgp : Bool := true
  passive : Bool := false
  down : Bool := false
  deriving DecidableEq

/-- The settings of `struct bgpd_config` that are not about one peer. -/
structure BgpdConfig where
  bgpid : ℕ := 0
  holdtime : ℕ := 0
  minHoldtime : ℕ := 0
  connectretry : ℕ := 0
  staletime : ℕ := 0
  deriving DecidableEq, Repr, Inhabited

/-- `capa` of `struct peer` -/
structure PeerCapa where
  ann : Capabilities := {}
  peer : Capabilities := {}
  neg : Capabilities := {}
  deriving DecidableEq, Inhabited

/-- `struct peer`. `addr` is the address of the struct, `template` the pointer to the peer it was
    cloned from; `wbuf` tells that the message buffer is there. -/
structure Peer where
  conf : PeerConf
  addr : ℕ
  capa : PeerCapa := {}
  authConf : AuthConf := {}
  timers : TimerHead := .empty
  wbuf : Bool := false
  template : Option ℕ := none
  fd : Option ℕ := none
  idleHoldTime : ℕ := 0
  localBgpid : ℕ := 0
  remoteBgpid : ℕ := 0
  state : State := .none
  prevState : State := .none
  reconfAction : ReconfAction := .reinit
  remoteRole : Role := .none
  shortAs : ℕ := 0
  holdtime : ℕ := 0
  dependOk : Bool := false
  /-- `uint8_t demoted` -/
  demoted : ℕ := 0
  throttled : Bool := false
  rdesession : Bool := false

/-! ## Messages of the neighbor -/

/-- One capability of an OPEN message. A family is `none` if `afi2aid` does not know it. -/
inductive Capa where
  | mp (aid : Option Aid)
  | refresh
  /-- The families and whether the nexthop is IPv6. `bad`: the last entry is cut off. -/
  | extNexthop (entries : List (Option Aid × Bool)) (bad : Bool)
  | extMsg
  | role (val : ℕ)
  /-- The header and the families with their forwarding bit. -/
  | restart (rFlag nFlag : Bool) (timeout : ℕ) (entries : List (Option Aid × Bool))
  | as4byte (as : ℕ)
  /-- The families with their flags. -/
  | addPath (entries : List (Option Aid × ℕ))
  | enhancedRr
  /-- The lengths are wrong: `CAPA_RESTART`, `CAPA_AS4BYTE`, `CAPA_ADD_PATH`. -/
  | badRestart | badAs4byte | badAddPath
  /-- A capability that is ignored: not known, or `CAPA_MP` or `CAPA_ROLE` with a wrong length. -/
  | ignored
  deriving DecidableEq, Repr

/-- One optional parameter of an OPEN message. -/
inductive OptParam where
  /-- The capabilities; `bad`: behind them stands one that is cut off. -/
  | capabilities (capas : List Capa) (bad : Bool)
  | unsupported
  deriving DecidableEq, Repr

/-- An OPEN message. `badLen`: behind the parameters stands something that does not fit. -/
structure OpenMsg where
  version : ℕ := 4
  shortAs : ℕ
  holdtime : ℕ
  bgpid : ℕ
  params : List OptParam := []
  badLen : Bool := false
  deriving DecidableEq, Repr

/-- A NOTIFICATION message. `inner` are the codes behind the first ones, if they are there. -/
structure NotificationMsg where
  errcode : ErrCode
  subcode : ℕ
  inner : Option (ErrCode × ℕ) := none
  deriving DecidableEq, Repr

/-- A ROUTE-REFRESH message. `exact`: it is not longer than it has to be. -/
structure RrefreshMsg where
  aid : Option Aid
  subtype : ℕ := 0
  exact : Bool := true
  deriving DecidableEq, Repr

/-- A message in the buffer of a peer. -/
inductive InMsg where
  | open (msg : OpenMsg)
  | update (data : List UInt8)
  | notification (msg : NotificationMsg)
  | keepalive
  | rrefresh (msg : RrefreshMsg)
  deriving DecidableEq, Repr

/-- `enum session_events` with the message that some of them carry. -/
inductive Event where
  | none | start | stop | conOpen | conClosed | conOpenfail | conFatal
  | timerConnretry | timerHoldtime | timerKeepalive | timerSendhold
  | rcvdOpen (msg : OpenMsg)
  | rcvdKeepalive
  | rcvdUpdate (data : List UInt8)
  | rcvdNotification (msg : NotificationMsg)
  | rcvdGraceNotification
  deriving DecidableEq, Repr

/-! ## What the engine sends -/

/-- A message to the neighbor. `hard`: the codes stand behind those of a hard reset. -/
inductive BgpMsg where
  | open (msg : OpenMsg)
  | keepalive
  | update (data : List UInt8)
  | notification (errcode : ErrCode) (subcode : ℕ) (hard : Bool)
  | rrefresh (aid : Aid) (subtype : ℕ)
  deriving DecidableEq, Repr

/-- A message to the RDE about a peer. -/
inductive RdeMsg where
  | sessionAdd (conf : PeerConf)
  | sessionUp (remoteBgpid shortAs : ℕ) (capa : Capabilities)
  | sessionDown
  | sessionDelete
  | stale (aid : Aid)
  | nograce (aid : Aid)
  | flush (aid : Aid)
  | restarted (aid : Aid)
  | update (data : List UInt8)
  | refresh (aid : Aid) (subtype : ℕ)
  | xoff
  | xon
  deriving DecidableEq

/-- What leaves the engine. The messages of a peer carry its id. -/
inductive Out where
  | rde (id : ℕ) (msg : RdeMsg)
  | bgp (id : ℕ) (msg : BgpMsg)
  /-- `IMSG_DEMOTE` -/
  | demote (id : ℕ) (group : String) (level : ℤ)
  /-- `IMSG_PFKEY_RELOAD` -/
  | pfkeyReload (id : ℕ)
  /-- `IMSG_SESSION_DEPENDON` -/
  | dependon (ifname : String)
  /-- `IMSG_RECONF_DRAIN` and `IMSG_RECONF_DONE` to the parent, `IMSG_RECONF_DRAIN` to the RDE. -/
  | drainMain | doneMain | drainRde
  deriving DecidableEq

/-- A peer and what was sent so far, the oldest message first. -/
structure Cur where
  peer : Peer
  out : List Out := []

namespace Cur

variable (c : Cur)

def modify (f : Peer → Peer) : Cur := { c with peer := f c.peer }

/-- A message to the parent or the neighbor. -/
def send (o : Out) : Cur := { c with out := c.out ++ [o] }

/-- `imsg_rde` -/
def imsgRde (msg : RdeMsg) : Cur := c.send (.rde c.peer.conf.id msg)

/-- `session_sendmsg` -/
def sessionSendmsg (msg : BgpMsg) : Cur := c.send (.bgp c.peer.conf.id msg)

/-- `timer_set` -/
def timerSet (now : ℕ) (t : TimerType) (offset : ℕ) : Cur :=
  c.modify fun p => { p with timers := p.timers.set now t offset }

/-- `timer_stop` -/
def timerStop (t : TimerType) : Cur := c.modify fun p => { p with timers := p.timers.stop t }

end Cur

end Bgpd.Session
