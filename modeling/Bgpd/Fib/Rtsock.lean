import Bgpd.Fib.Change

/-!
# Messages of the Routing Socket

What the kernel reports: changes of its routes, and interfaces that come, go or change their state.
`dispatch_rtmsg` handles the messages of one read in a loop; `mpath` is a variable of the loop.
-/

namespace Bgpd.Fib

open Lib
open Rde (Aid BgpdAddr)

/-! ## Messages -/

/-- The addresses in a message. -/
inductive Sockaddr where
  | inet (addr : ℕ)
  | inet6 (addr scopeId : ℕ)
  | link
  | other
  deriving DecidableEq

/-- `sa2addr` -/
def sa2addr : Sockaddr → BgpdAddr
  | .inet a => { aid := some .inet, addr := a }
  | .inet6 a scopeId => { aid := some .inet6, addr := a, scopeId := scopeId }
  | .link => {}
  | .other => {}

/-- `struct rt_msghdr` with its addresses; `skip` is one of `RTF_LLINFO`, `RTF_BROADCAST` and
    `RTF_DYNAMIC`, and the netmask is given by its length. The kernel reports the priority of a
    route, which is never `RTP_ANY`. -/
structure RtMsg where
  type : RtmType
  pid : ℕ := 0
  errno : ℕ := 0
  done : Bool := true
  mpath : Bool := false
  tableid : ℕ := 0
  skip : Bool := false
  isStatic : Bool := false
  blackhole : Bool := false
  reject : Bool := false
  host : Bool := false
  gatewayFlag : Bool := true
  priority : ℕ+ := 8
  index : ℕ := 0
  label : Option String := none
  dst : Option Sockaddr
  netmask : Option ℕ := none
  gateway : Option Sockaddr
  deriving DecidableEq

/-- The messages of the routing socket. -/
inductive KMsg where
  | route (rtm : RtMsg)
  | ifinfo (index : ℕ) (up : Bool) (linkState ifType rdomain : ℕ)
  | arrival (index : ℕ) (name : String)
  | departure (index : ℕ)
  | other
  deriving DecidableEq

/-- An IPv4 address as a little-endian machine reads it. -/
def htonl (a : ℕ) : ℕ :=
  a % 2 ^ 8 * 2 ^ 24 + a / 2 ^ 8 % 2 ^ 8 * 2 ^ 16 + a / 2 ^ 16 % 2 ^ 8 * 2 ^ 8 + a / 2 ^ 24 % 2 ^ 8

/-- `prefixlen_classful` -/
def prefixlenClassful (ina : ℕ) : ℕ :=
  if ina ≥ 0xf0000000 then 32
  else if ina ≥ 0xe0000000 then 4
  else if ina ≥ 0xc0000000 then 24
  else if ina ≥ 0x80000000 then 16
  else 8

/-- What `dispatch_rtmsg_addr` makes of a message. -/
inductive Parsed where
  | skip
  | fatal
  | route (kf : KrouteFull)
  deriving DecidableEq

/-- The length of the prefix; `none` is an IPv6 network without a netmask. -/
def msgPrefixlen (rtm : RtMsg) : Sockaddr → Option ℕ
  | .inet a =>
    if rtm.host then some 32 else some (rtm.netmask.getD (prefixlenClassful (htonl a)))
  | _ => if rtm.host then some 128 else rtm.netmask

/-- The nexthop of the route and whether it is connected. -/
def msgGateway (rtm : RtMsg) (gateway : Sockaddr) : BgpdAddr × Bool :=
  if rtm.gatewayFlag then
    match gateway with
    | .link => ({}, true)
    | sa => (sa2addr sa, false)
  else ({}, true)

/-- The route of a message with a destination and a gateway. -/
def msgFull (fibPrio : ℕ) (rtm : RtMsg) (dst gateway : Sockaddr) (prefixlen : ℕ) : KrouteFull :=
  { dst := sa2addr dst
    nexthop := (msgGateway rtm gateway).1
    label := rtm.label.getD ""
    flags :=
      { connected := (msgGateway rtm gateway).2
        isStatic := rtm.isStatic
        blackhole := rtm.blackhole
        reject := rtm.reject }
    ifindex := rtm.index
    prefixlen := prefixlen
    priority := if (rtm.priority : ℕ) = fibPrio then rtpMine else rtm.priority }

/-- `dispatch_rtmsg_addr` -/
def dispatchRtmsgAddr (fibPrio : ℕ) (rtm : RtMsg) : Parsed :=
  -- skip ARP/ND cache, broadcast and dynamic routes
  if rtm.skip then .skip
  else
    match rtm.dst with
    | none => .skip
    | some dst =>
      if (rtm.label.getD "").utf8ByteSize ≥ 32 then .fatal
      else
        match plainFamily (sa2addr dst).aid, msgPrefixlen rtm dst, rtm.gateway with
        | none, _, _ => .skip
        | some _, none, _ => .fatal
        | some _, some _, none => .skip
        | some _, some prefixlen, some gateway => .route (msgFull fibPrio rtm dst gateway prefixlen)

/-! ## Interfaces -/

/-- `LINK_STATE_DOWN` -/
def linkStateDown : ℕ := 2
/-- `LINK_STATE_UP` -/
def linkStateUp : ℕ := 4
/-- `IFT_CARP` -/
def iftCarp : ℕ := 0xf7

/-- `kif_validate` -/
def kifValidate (kif : Kif) : Bool := kif.up && kif.linkState ≠ linkStateDown

/-- `kif_depend_state` -/
def kifDependState (kif : Kif) : Bool :=
  if !kif.up then false
  else if kif.ifType = iftCarp ∧ kif.linkState = 0 then false
  else kif.linkState ≥ linkStateUp ∨ kif.linkState = 0

/-- `kif_compare` -/
def kifCompare (a b : Kif) : Int := compareThen b.ifindex a.ifindex 0

/-- The nexthops of a table are tracked, if there is such a table. -/
def Krs.trackTable (s : Krs) (rtableid ifindex : ℕ) : Krs :=
  match s.ktableGet rtableid with
  | none => s
  | some kt => s.knexthopTrack kt.nhtableid ifindex

/-- The interface is replaced. -/
def Krs.setKif (s : Krs) (kif : Kif) : Krs :=
  { s with kit := s.kit.map fun k => if k.ifindex = kif.ifindex then kif else k }

/-- The interface with what `if_change` reads from the message. -/
def newKif (kif : Kif) (up : Bool) (linkState ifType rdomain : ℕ) : Kif :=
  let kif₁ := { kif with up := up, linkState := linkState, ifType := ifType, rdomain := rdomain }
  { kif₁ with dependState := kifDependState kif₁ }

/-- `if_change` -/
def ifChange (s : Krs) (ifindex : ℕ) (up : Bool) (linkState ifType rdomain : ℕ) : Krs :=
  match kifFind s.kit ifindex with
  | none => s
  | some kif =>
    let kif₁ := newKif kif up linkState ifType rdomain
    let s₁ := (s.setKif kif₁).send (.dependon kif₁.ifname kif₁.dependState)
    -- nothing changed with respect to nexthop validity
    if kifValidate kif₁ = kif₁.nhReachable then s₁
    else (s₁.setKif { kif₁ with nhReachable := kifValidate kif₁ }).trackTable rdomain ifindex

/-- `if_announce` of an arrival -/
def ifArrival (s : Krs) (ifindex : ℕ) (name : String) : Krs :=
  match rbInsert kifCompare { ifindex := ifindex, ifname := name } s.kit with
  | none => s
  | some kit => { s with kit := kit }

/-- `kif_remove` -/
def kifRemove (s : Krs) (kif : Kif) : Krs :=
  let s₁ := (s.setKif { kif with up := false }).trackTable kif.rdomain kif.ifindex
  { s₁ with kit := rbRemove kifCompare kif s₁.kit }

/-- `if_announce` of a departure -/
def ifDeparture (s : Krs) (ifindex : ℕ) : Krs :=
  match kifFind s.kit ifindex with
  | none => s
  | some kif => kifRemove s kif

/-! ## Reads -/

/-- The message is about a route of one of our tables: the route and the table that its nexthops are
    in. Messages caused by us and failed attempts are not. -/
def routeMsg (env : Env) (s : Krs) (rtm : RtMsg) : Parsed × ℕ :=
  if rtm.pid = env.pid ∨ rtm.errno ≠ 0 ∨ !rtm.done then (.skip, 0)
  else
    match s.ktableGet rtm.tableid with
    | none => (.skip, 0)
    | some kt => (dispatchRtmsgAddr s.fibPrio rtm, kt.nhtableid)

/-- `kr_fib_change` or `kr_fib_delete`, by the type of the message -/
def fibMsg (env : Env) (s : Krs) (rtm : RtMsg) (nh : ℕ) (kf : KrouteFull) (mpath : Bool) :
    Krs × Int :=
  if rtm.type = .delete then s.krFibDelete env rtm.tableid nh kf mpath
  else (s.krFibChange env rtm.tableid nh kf rtm.type mpath, 0)

/-- What one message leaves: the state, `mpath` and the result. -/
structure Dispatched where
  s : Krs
  mpath : Bool
  result : Int

/-- The body of the loop of `dispatch_rtmsg`. -/
def dispatchOne (env : Env) (s : Krs) (mpath : Bool) : KMsg → Dispatched
  | .route rtm =>
    match routeMsg env s rtm with
    | (.skip, _) => ⟨s, mpath, 0⟩
    | (.fatal, _) => ⟨s.die, mpath, 0⟩
    | (.route kf, nh) =>
      ⟨(fibMsg env s rtm nh kf (mpath || rtm.mpath)).1, mpath || rtm.mpath,
        (fibMsg env s rtm nh kf (mpath || rtm.mpath)).2⟩
  | .ifinfo index up linkState ifType rdomain =>
    ⟨ifChange s index up linkState ifType rdomain, mpath, 0⟩
  | .arrival index name => ⟨ifArrival s index name, mpath, 0⟩
  | .departure index => ⟨ifDeparture s index, mpath, 0⟩
  | .other => ⟨s, mpath, 0⟩

/-- The loop of `dispatch_rtmsg` -/
def dispatchLoop (env : Env) : Krs → Bool → List KMsg → Krs × Int
  | s, _, [] => (s, 0)
  | s, mpath, m :: buf =>
    if (dispatchOne env s mpath m).result = -1 then ((dispatchOne env s mpath m).s, -1)
    else dispatchLoop env (dispatchOne env s mpath m).s (dispatchOne env s mpath m).mpath buf

/-- `dispatch_rtmsg` of one read. An empty read says that the socket was closed. -/
def dispatchRtmsg (env : Env) (s : Krs) (buf : List KMsg) : Krs × Int :=
  match buf with
  | [] => (s, -1)
  | buf => dispatchLoop env s false buf

/-- The main loop calls `dispatch_rtmsg` for one read after the other and ends when it fails. -/
def dispatchReads (env : Env) : Krs → List (List KMsg) → Krs
  | s, [] => s
  | s, buf :: bufs =>
    if (dispatchRtmsg env s buf).2 = -1 then { (dispatchRtmsg env s buf).1 with quit := true }
    else dispatchReads env (dispatchRtmsg env s buf).1 bufs

end Bgpd.Fib
