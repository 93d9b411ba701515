import Bgpd.Fib.Tree

/-!
# Watched Nexthops

`knexthop_validate` looks for the best route to a nexthop in the table of its routing domain, marks
this route with `F_NEXTHOP` and keeps a pointer to it; `kroute_detach_nexthop` gives it up. The
route decision engine is told what changed.
-/

namespace Bgpd.Fib

open Lib
open Rde (Aid BgpdAddr)

/-! ## The route to a nexthop -/

/-- The first `len` bits of an address. -/
def maskAddr (f : Family) (addr len : ℕ) : ℕ :=
  addr / 2 ^ (f.bits - len) * 2 ^ (f.bits - len)

/-- The scope of a search: IPv4 routes have none. -/
def Family.scope (f : Family) (scopeId : ℕ) : ℕ :=
  match f with
  | .inet => 0
  | .inet6 => scopeId

/-- `bgpd_oknexthop` -/
def bgpdOknexthop (cflags : Cflags) (flags : Flags) (prefixlen : ℕ) : Bool :=
  if flags.bgpd then cflags.nexthopBgp
  else if prefixlen = 0 then cflags.nexthopDefault
  else true

/-- One round of the loop of `kroute_match` and `kroute6_match`. -/
def krouteMatchLen (cflags : Cflags) (t : KrouteTree) (f : Family) (key : BgpdAddr)
    (matchany : Bool) (len : ℕ) : Option Kroute :=
  match krouteFind t (maskAddr f key.addr len) (f.scope key.scopeId) len none with
  | some n =>
    if matchany ∨ bgpdOknexthop cflags n.kr.flags n.kr.prefixlen then some n.kr else none
  | none => none

/-- `kroute_match` and `kroute6_match`, from a prefix length on downwards -/
def krouteMatch (cflags : Cflags) (t : KrouteTree) (f : Family) (key : BgpdAddr)
    (matchany : Bool) : ℕ → Option Kroute
  | 0 => krouteMatchLen cflags t f key matchany 0
  | len + 1 =>
    match krouteMatchLen cflags t f key matchany (len + 1) with
    | some kr => some kr
    | none => krouteMatch cflags t f key matchany len

/-! ## Pointers -/

/-- `F_NEXTHOP` of a route is set or cleared. -/
def Kroute.withNexthop (b : Bool) (kr : Kroute) : Kroute :=
  { kr with flags := { kr.flags with nexthop := b } }

namespace Ktable

variable (kt : Ktable)

/-- The route at an address is changed. -/
def update (f : Family) (ptr : ℕ) (g : Kroute → Kroute) : Ktable :=
  kt.setTree f (updateRoute ptr g (kt.tree f))

/-- The route that a pointer points to. -/
def deref (f : Family) (ptr : ℕ) : Option Kroute :=
  (routes (kt.tree f)).find? fun kr => kr.ptr = ptr

/-- The nexthop with an address is changed. -/
def setNexthop (a : BgpdAddr) (g : Knexthop → Knexthop) : Ktable :=
  { kt with knt := kt.knt.map fun kn => if kn.nexthop = a then g kn else kn }

/-- There is another nexthop depending on the route. -/
def otherNexthop (kn : Knexthop) (ptr : ℕ) : Bool :=
  kt.knt.any fun s => s.kroute = some ptr ∧ s.nexthop ≠ kn.nexthop

/-- The nexthop depends on no route from now on. -/
def clearNexthop (a : BgpdAddr) : Ktable :=
  kt.setNexthop a fun kn => { kn with kroute := none, ifindex := 0 }

/-- `kroute_detach_nexthop`, on the nexthops of the table and its routes. -/
def detachNexthop (kn : Knexthop) : Ktable :=
  match kn.kroute, plainFamily kn.nexthop.aid with
  | none, _ => kt
  | some _, none => kt.clearNexthop kn.nexthop
  | some ptr, some f =>
    if kt.otherNexthop kn ptr then kt.clearNexthop kn.nexthop
    else (kt.update f ptr (Kroute.withNexthop false)).clearNexthop kn.nexthop

/-- The nexthop depends on a route from now on. -/
def attachNexthop (f : Family) (a : BgpdAddr) (kr : Kroute) : Ktable :=
  (kt.update f kr.ptr (Kroute.withNexthop true)).setNexthop a fun kn =>
    { kn with kroute := some kr.ptr, ifindex := kr.ifindex }

/-- `knexthop_validate` without the message: the table, and whether the route is another one. -/
def validate (cflags : Cflags) (kn : Knexthop) : Ktable × Bool :=
  match plainFamily kn.nexthop.aid with
  | none => (kt.detachNexthop kn, false)
  | some f =>
    match krouteMatch cflags ((kt.detachNexthop kn).tree f) f kn.nexthop false f.bits with
    | none => (kt.detachNexthop kn, kn.kroute ≠ none)
    | some kr =>
      ((kt.detachNexthop kn).attachNexthop f kn.nexthop kr, kn.kroute ≠ some kr.ptr)

end Ktable

/-! ## Messages -/

/-- `kif_find` -/
def kifFind (kit : List Kif) (ifindex : ℕ) : Option Kif :=
  kit.find? fun kif => kif.ifindex = ifindex

/-- `kroute_validate` and `kroute6_validate` -/
def krouteValidate (kit : List Kif) (kr : Kroute) : Bool :=
  if kr.flags.reject ∨ kr.flags.blackhole then false
  else
    match kifFind kit kr.ifindex with
    | none => true
    | some kif => kif.nhReachable

/-- The message about a nexthop whose route is `kr`. -/
def nexthopMsg (kit : List Kif) (a : BgpdAddr) (f : Family) (kr : Kroute) : KrouteNexthop :=
  if kr.flags.connected then
    { nexthop := a
      gateway := a
      net := { aid := some f.aid, addr := kr.dst, scopeId := kr.scopeId }
      netlen := kr.prefixlen
      valid := krouteValidate kit kr
      connected := true }
  else
    { nexthop := a
      gateway := { aid := some f.aid, addr := kr.nexthop, scopeId := kr.nexthopScopeId }
      valid := krouteValidate kit kr }

namespace Krs

variable (s : Krs)

/-- `knexthop_send_update` of a nexthop of the table `nh`. A pointer to a route that is gone is the
    use of freed memory. -/
def knexthopSendUpdate (nh : ℕ) (kn : Knexthop) : Krs :=
  match kn.kroute, plainFamily kn.nexthop.aid with
  | none, _ => s.send (.nexthopUpdate { nexthop := kn.nexthop })
  | some _, none => s.send (.nexthopUpdate { nexthop := kn.nexthop })
  | some ptr, some f =>
    match (s.ktableGet nh).bind fun kt => kt.deref f ptr with
    | none => s.die
    | some kr => s.send (.nexthopUpdate (nexthopMsg s.kit kn.nexthop f kr))

/-- `knexthop_find` by the address in the struct. -/
def knexthopAt (nh : ℕ) (a : BgpdAddr) : Option Knexthop :=
  (s.ktableGet nh).bind fun kt => kt.knt.find? fun kn => kn.nexthop = a

/-- The message of `knexthop_validate` -/
def validateMsg (nh : ℕ) (a : BgpdAddr) (changed : Bool) : Krs :=
  match s.knexthopAt nh a with
  | some kn => if changed then s.knexthopSendUpdate nh kn else s
  | none => s

/-- `knexthop_validate` of a nexthop of the table `nh`, which is `kt->nhtableid`. -/
def knexthopValidate (nh : ℕ) (a : BgpdAddr) : Krs :=
  match s.ktableGet nh with
  | none => s.die
  | some kt =>
    match kt.knt.find? fun kn => kn.nexthop = a with
    | none => s
    | some kn =>
      (s.modifyTable nh fun _ => (kt.validate s.cflags kn).1).validateMsg nh a
        (kt.validate s.cflags kn).2

/-- The loops `RB_FOREACH(n, knexthop_tree, KT2KNT(kt))` over the nexthops that meet a condition.
    What is done with one nexthop does not change whether another meets it. -/
def foreachNexthop (nh : ℕ) (cond : Knexthop → Bool) (f : Krs → Knexthop → Krs) : Krs :=
  match s.ktableGet nh with
  | none => s.die
  | some kt => (kt.knt.filter cond).foldl f s

/-- Such a loop with `knexthop_validate` -/
def validateAll (nh : ℕ) (cond : Knexthop → Bool) : Krs :=
  s.foreachNexthop nh cond fun s kn => s.knexthopValidate nh kn.nexthop

/-- `knexthop_track` of the table whose nexthops are in `nh`. -/
def knexthopTrack (nh ifindex : ℕ) : Krs := s.validateAll nh fun kn => kn.ifindex = ifindex

/-- `prefix_compare(..) == 0` of a destination and a nexthop. -/
def prefixMatch (dst : BgpdAddr) (len : ℕ) (a : BgpdAddr) : Bool :=
  match plainFamily dst.aid with
  | none => false
  | some f => a.aid = dst.aid ∧
      (len = 0 ∨ (len ≤ f.bits ∧ maskAddr f dst.addr len = maskAddr f a.addr len))

/-- `knexthop_update` for a route of a table whose nexthops are in `nh`. -/
def knexthopUpdate (nh : ℕ) (kf : KrouteFull) : Krs :=
  s.foreachNexthop nh (fun kn => prefixMatch kf.dst kf.prefixlen kn.nexthop)
    fun s kn => s.knexthopSendUpdate nh kn

end Krs

end Bgpd.Fib
