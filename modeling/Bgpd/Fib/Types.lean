import Bgpd.Fib.Label
import Bgpd.Lib.RbTree
import Bgpd.Rde.Types
import Mathlib.Data.PNat.Basic

/-!
# Kernel Routes

The data of `kroute.c`: the routes of the kernel's routing tables as the parent process knows
them, the nexthops it watches for the route decision engine, the interfaces, and the networks it
redistributes. `struct kroute` and `struct kroute6` have the same fields and are one record; the
two trees of a table are told apart by a `Family`.

A route is named by the address of its struct. Addresses are not used again.

## Main definitions

- `Kroute`, `Knexthop`, `Kif`, `Ktable`
- `Krs`: the state of the module, with what it sent
-/

namespace Bgpd.Fib

open Lib
open Rde (Aid BgpdAddr)

/-! ## Routes -/

/-- The flags `F_BGPD` to `F_MPLS`. -/
structure Flags where
  bgpd : Bool := false
  bgpdInserted : Bool := false
  connected : Bool := false
  isStatic : Bool := false
  nexthop : Bool := false
  reject : Bool := false
  blackhole : Bool := false
  mpls : Bool := false
  deriving DecidableEq

/-- `RTP_MINE`, the priority of our own routes whatever their priority in the kernel is. -/
def rtpMine : ℕ+ := 0xff

/-- `struct kroute_full`. The label stack belongs to the prefix of a VPN route. A priority is that
    of a route and so never `RTP_ANY`. -/
structure KrouteFull where
  dst : BgpdAddr
  labelstack : List ℕ := []
  nexthop : BgpdAddr := {}
  label : String := ""
  mplslabel : ℕ := 0
  flags : Flags := {}
  ifindex : ℕ := 0
  prefixlen : ℕ
  priority : ℕ+ := rtpMine
  deriving DecidableEq

/-- Which of the two kinds of routes. -/
inductive Family where
  | inet | inet6
  deriving DecidableEq

/-- The length of an address in bits. -/
def Family.bits : Family → ℕ
  | inet => 32
  | inet6 => 128

/-- The address family of the routes. -/
def Family.aid : Family → Aid
  | inet => .inet
  | inet6 => .inet6

/-- The kind of route that an address family is kept as. -/
def familyOf : Option Aid → Option Family
  | some .inet => some .inet
  | some .inet6 => some .inet6
  | some .vpn4 => some .inet
  | some .vpn6 => some .inet6
  | _ => none

/-- The family of a plain address. -/
def plainFamily : Option Aid → Option Family
  | some .inet => some .inet
  | some .inet6 => some .inet6
  | _ => none

/-- `AID_VPN_IPv4` and `AID_VPN_IPv6` -/
def isVpn : Option Aid → Bool
  | some .vpn4 => true
  | some .vpn6 => true
  | _ => false

/-- `struct kroute` and `struct kroute6`; `ptr` is the address of the struct. The scope ids of IPv4
    routes are zero. -/
structure Kroute where
  ptr : ℕ
  dst : ℕ
  scopeId : ℕ := 0
  nexthop : ℕ := 0
  nexthopScopeId : ℕ := 0
  mplslabel : ℕ := 0
  flags : Flags := {}
  labelid : ℕ := 0
  ifindex : ℕ := 0
  prefixlen : ℕ
  priority : ℕ+
  deriving DecidableEq

/-- One stage of a comparison function: the next stage decides if the values are the same. -/
def compareThen {α : Type} [LinearOrder α] (a b : α) (next : Int) : Int :=
  if a < b then -1 else if a > b then 1 else next

/-- `kroute_compare` and `kroute6_compare` of two routes -/
def krouteCompare (a b : Kroute) : Int :=
  compareThen a.dst b.dst (compareThen a.scopeId b.scopeId (compareThen a.prefixlen b.prefixlen
    (compareThen a.priority b.priority 0)))

/-- A node of a tree with its list of multipath routes. -/
structure Node where
  kr : Kroute
  next : List Kroute := []
  deriving DecidableEq

/-- `kroute_tree` and `kroute6_tree` -/
abbrev KrouteTree := List Node

/-! ## Nexthops, interfaces and networks -/

/-- `struct knexthop`; the pointer to a route is its address. -/
structure Knexthop where
  nexthop : BgpdAddr
  kroute : Option ℕ := none
  ifindex : ℕ := 0
  deriving DecidableEq

/-- `struct kif`; `up` is `IFF_UP`. -/
structure Kif where
  ifindex : ℕ
  ifname : String := ""
  rdomain : ℕ := 0
  up : Bool := false
  ifType : ℕ := 0
  linkState : ℕ := 0
  nhReachable : Bool := false
  dependState : Bool := false
  deriving DecidableEq

/-- `enum network_type` -/
inductive NetworkType where
  | default | isStatic | connected | rtlabel | mrtclone | priority | prefixset
  deriving DecidableEq

/-- `struct network_config`; the filter set is named by a number. -/
structure NetworkConfig where
  dst : BgpdAddr
  prefixlen : ℕ
  type : NetworkType := .default
  rd : ℕ := 0
  rtlabel : ℕ := 0
  priority : ℕ := 0
  attrset : ℕ := 0
  deriving DecidableEq

/-- `struct kredist_node` -/
structure KredistNode where
  dst : BgpdAddr
  prefixlen : ℕ
  rd : ℕ
  dynamic : Bool
  deriving DecidableEq

/-! ## Tables -/

/-- The fields of `struct ktable` that say what a table is for. -/
structure KtableConf where
  rtableid : ℕ
  /-- The routing domain, in whose table nexthops are looked up. -/
  nhtableid : ℕ
  fibSync : Bool := false
  deriving DecidableEq

/-- `struct ktable` -/
structure Ktable extends KtableConf where
  krt : KrouteTree := []
  krt6 : KrouteTree := []
  knt : List Knexthop := []
  kredist : List KredistNode := []
  krn : List NetworkConfig := []

/-! ## Messages -/

/-- `RTM_ADD`, `RTM_CHANGE` and `RTM_DELETE` -/
inductive RtmType where
  | add | change | delete
  deriving DecidableEq

/-- `struct kroute_nexthop` -/
structure KrouteNexthop where
  nexthop : BgpdAddr
  gateway : BgpdAddr := {}
  net : BgpdAddr := {}
  netlen : ℕ := 0
  valid : Bool := false
  connected : Bool := false
  deriving DecidableEq

/-- What the module sends: messages to the kernel, to the route decision engine and to the session
    engine. -/
inductive Out where
  | rtmsg (action : RtmType) (rtableid prio : ℕ) (kf : KrouteFull)
  | nexthopUpdate (n : KrouteNexthop)
  | networkAdd (net : NetworkConfig) (attrset : ℕ)
  | networkRemove (net : NetworkConfig)
  | dependon (ifname : String) (dependState : Bool)
  deriving DecidableEq

/-- What `writev` to the routing socket returns: success, `ESRCH` or another error. -/
inductive WriteResult where
  | ok | esrch | failed
  deriving DecidableEq

/-- What the kernel decides: our process id, and the result of each write, by sequence number and
    action. -/
structure Env where
  pid : ℕ := 1
  writev : ℕ → RtmType → WriteResult := fun _ _ => .ok

/-- The flags of the configuration that concern routes: `BGPD_FLAG_NEXTHOP_BGP` and
    `BGPD_FLAG_NEXTHOP_DEFAULT`. -/
structure Cflags where
  nexthopBgp : Bool := false
  nexthopDefault : Bool := false
  deriving DecidableEq

/-- The state of the module: the tables by number, the interfaces, the route labels, `kr_state`,
    and the configuration flags. `alloc` is the address of the next struct that is allocated. `died`
    says that the process ended in `fatalx` or by the use of a `NULL` pointer; nothing that
    happens in the model from then on happens in the program. -/
structure Krs where
  krt : List (Option Ktable) := []
  kit : List Kif := []
  labels : List N2idLabel := []
  fibPrio : ℕ := 48
  rtseq : ℕ := 1
  cflags : Cflags := {}
  quit : Bool := false
  alloc : ℕ := 0
  died : Bool := false
  out : List Out := []

namespace Ktable

variable (kt : Ktable)

/-- The tree of the routes of a family. -/
def tree : Family → KrouteTree
  | .inet => kt.krt
  | .inet6 => kt.krt6

/-- Replace the tree of a family. -/
def setTree (f : Family) (t : KrouteTree) : Ktable :=
  match f with
  | .inet => { kt with krt := t }
  | .inet6 => { kt with krt6 := t }

end Ktable

namespace Krs

variable (s : Krs)

/-- `ktable_get` -/
def ktableGet (rtableid : ℕ) : Option Ktable := s.krt[rtableid]?.join

/-- A change of one table. -/
def modifyTable (rtableid : ℕ) (f : Ktable → Ktable) : Krs :=
  { s with krt := s.krt.modify rtableid (Option.map f) }

/-- The process ends. -/
def die : Krs := { s with died := true }

/-- A message is sent. -/
def send (o : Out) : Krs := { s with out := s.out ++ [o] }

end Krs

end Bgpd.Fib
