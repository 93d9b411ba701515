import Bgpd.Fib.Nexthop

/-!
# Routes of the Tables

`kroute_insert` and `kroute_remove` with the messages to the kernel, and the redistribution of
kernel routes as networks.
-/

namespace Bgpd.Fib

open Lib
open Rde (Aid BgpdAddr)

/-! ## Networks -/

/-- `kredist_compare` -/
def kredistCompare (a b : KredistNode) : Int :=
  compareThen b.dst.aidVal a.dst.aidVal (compareThen a.prefixlen b.prefixlen
    (compareThen a.dst.addr b.dst.addr (compareThen a.rd b.rd 0)))

/-- A network of the configuration asks for the route. -/
def netWants (net : NetworkConfig) (flags : Flags) (loopback : Bool) (xn : NetworkConfig) : Bool :=
  xn.dst.aid = net.dst.aid && match xn.type with
    | .default => false
    | .isStatic => !loopback && flags.isStatic
    | .connected => !loopback && flags.connected
    | .rtlabel => net.rtlabel = xn.rtlabel
    | .priority => net.priority = xn.priority
    | .mrtclone => false
    | .prefixset => false

/-- The destination is not redistributable: loopback and multicast addresses, and for IPv6 also
    unspecified, link- and site-local, IPv4 mapped and IPv4 compatible ones. -/
def notRedistributable (f : Family) (addr : ℕ) : Bool :=
  match f with
  | .inet => addr / 2 ^ 28 = 0xe ∨ addr / 2 ^ 24 = 127
  | .inet6 => addr = 0 ∨ addr = 1 ∨ addr / 2 ^ 120 = 0xff ∨ addr / 2 ^ 118 = 0x3fa ∨
      addr / 2 ^ 118 = 0x3fb ∨ addr / 2 ^ 32 = 0xffff ∨ addr / 2 ^ 32 = 0

/-- The address is the loopback address of the family. -/
def isLoopback (f : Family) (addr : ℕ) : Bool :=
  match f with
  | .inet => addr = 0x7f000001
  | .inet6 => addr = 1

/-- `IMSG_NETWORK_ADD` or `IMSG_NETWORK_REMOVE` -/
inductive NetworkMsg where
  | add | remove
  deriving DecidableEq

/-! ## The route to insert and the route to remove -/

/-- The MPLS label of a stack with a single label. -/
def mplsLabel (labelstack : List ℕ) : ℕ :=
  match labelstack with
  | [a, b, c] => a * 2 ^ 24 + b * 2 ^ 16 + c * 2 ^ 8
  | _ => 0

/-- The route that `kroute_insert` fills in. -/
def newKroute (f : Family) (kf : KrouteFull) (ptr labelid : ℕ) : Kroute :=
  { ptr := ptr
    dst := kf.dst.addr
    scopeId := f.scope kf.dst.scopeId
    nexthop := if kf.nexthop.aid = some f.aid then kf.nexthop.addr else 0
    nexthopScopeId := if kf.nexthop.aid = some f.aid then f.scope kf.nexthop.scopeId else 0
    mplslabel := if isVpn kf.dst.aid then mplsLabel kf.labelstack else 0
    flags := if isVpn kf.dst.aid then { kf.flags with mpls := true } else kf.flags
    labelid := labelid
    ifindex := kf.ifindex
    prefixlen := kf.prefixlen
    priority := kf.priority }

/-- What a removal does: the route is not there or of the wrong type, the route or its place in the
    tree is not found, or a route is taken out; routes of the same prefix may remain. In the last
    two cases the tree is a new one. -/
inductive Removed where
  | missing
  | wrongType (kr : Kroute)
  | lost (t : KrouteTree)
  | route (krm : Kroute) (t : KrouteTree) (multipath : Bool)
  deriving DecidableEq

/-- The search of `kroute4_remove` and `kroute6_remove`, and the tree after it. -/
def removeFrom (t : KrouteTree) (f : Family) (kf : KrouteFull) (any : Bool) : Removed :=
  match krouteFind t kf.dst.addr (f.scope kf.dst.scopeId) kf.prefixlen (some kf.priority) with
  | none => .missing
  | some n =>
    if n.kr.flags.bgpd ≠ kf.flags.bgpd then .wrongType n.kr
    else
      match if any then some n.kr else krouteMatchgw n kf with
      | none => .lost t
      | some krm =>
        match unlinkRoute n krm t with
        | (t', none) => .lost t'
        | (t', some multipath) => .route krm t' multipath

namespace Krs

variable (env : Env) (s : Krs)

/-! ## Messages to the kernel -/

/-- The write of a message succeeds. A change of a route that is not there is sent again as an
    addition; a route that is gone is as good as deleted. -/
def written (seq : ℕ) (action : RtmType) : Bool :=
  match env.writev seq action, action with
  | .ok, _ => true
  | .esrch, .change => env.writev seq .add = .ok
  | .esrch, .delete => true
  | .esrch, .add => false
  | .failed, _ => false

/-- `send_rtmsg` for a table: the state, and whether the kernel took the message. -/
def sendRtmsg (action : RtmType) (rtableid : ℕ) (kf : KrouteFull) : Krs × Bool :=
  match s.ktableGet rtableid with
  | none => (s, false)
  | some kt =>
    if !kt.fibSync then (s, false)
    else ({ s.send (.rtmsg action rtableid s.fibPrio kf) with rtseq := s.rtseq + 1 },
      written env s.rtseq action)

/-- `kr_tofull` and `kr6_tofull` -/
def krTofull (f : Family) (kr : Kroute) : KrouteFull :=
  { dst := { aid := some f.aid, addr := kr.dst, scopeId := kr.scopeId }
    nexthop := { aid := some f.aid, addr := kr.nexthop, scopeId := kr.nexthopScopeId }
    label := id2name s.labels kr.labelid
    mplslabel := kr.mplslabel
    flags := kr.flags
    ifindex := kr.ifindex
    prefixlen := kr.prefixlen
    priority := kr.priority }

/-- A route of a table is changed. -/
def updateKroute (rtableid : ℕ) (f : Family) (ptr : ℕ) (g : Kroute → Kroute) : Krs :=
  s.modifyTable rtableid fun kt => kt.update f ptr g

/-- `if (send_rtmsg(..)) kr->flags |= F_BGPD_INSERTED` -/
def sendInserted (action : RtmType) (rtableid : ℕ) (f : Family) (ptr : ℕ) (kf : KrouteFull) : Krs :=
  if (s.sendRtmsg env action rtableid kf).2 then
    (s.sendRtmsg env action rtableid kf).1.updateKroute rtableid f ptr fun kr =>
      { kr with flags := { kr.flags with bgpdInserted := true } }
  else (s.sendRtmsg env action rtableid kf).1

/-! ## Redistribution -/

/-- `send_network` of an addition or a removal -/
def sendNetwork (o : Out) : Krs := if s.quit then s else s.send o

/-- The redistributed networks of a table change. -/
def setKredist (rtableid : ℕ) (l : List KredistNode) : Krs :=
  s.modifyTable rtableid fun kt => { kt with kredist := l }

/-- `kr_net_redist_add`: the state and the result. -/
def krNetRedistAdd (rtableid : ℕ) (net : NetworkConfig) (attr : ℕ) (dynamic : Bool) : Krs × Bool :=
  match s.ktableGet rtableid with
  | none => (s, false)
  | some kt =>
    match rbInsert kredistCompare ⟨net.dst, net.prefixlen, net.rd, dynamic⟩ kt.kredist with
    | some l => ((s.setKredist rtableid l).sendNetwork (.networkAdd net attr), true)
    | none =>
      match rbFind kredistCompare ⟨net.dst, net.prefixlen, net.rd, dynamic⟩ kt.kredist with
      | none => (s, false)
      | some xr =>
        -- a non-dynamic announcement that is already present has preference
        if dynamic ≠ xr.dynamic ∧ dynamic then (s, false)
        else ((s.setKredist rtableid (kt.kredist.map fun r =>
            if kredistCompare xr r = 0 then { r with dynamic := dynamic } else r)).sendNetwork
              (.networkAdd net attr), true)

/-- `kr_net_redist_del` -/
def krNetRedistDel (rtableid : ℕ) (net : NetworkConfig) (dynamic : Bool) : Krs :=
  match s.ktableGet rtableid with
  | none => s
  | some kt =>
    match rbFind kredistCompare ⟨net.dst, net.prefixlen, net.rd, dynamic⟩ kt.kredist with
    | none => s
    | some r =>
      if dynamic ≠ r.dynamic then s
      else (s.setKredist rtableid (rbRemove kredistCompare r kt.kredist)).sendNetwork
        (.networkRemove net)

/-- `kr_net_match` over the networks of the table. The route distinguisher of the last network that
    asked for the route stays in `net`. -/
def krNetMatch (rtableid : ℕ) (flags : Flags) (loopback : Bool) :
    Krs → NetworkConfig → List NetworkConfig → Krs × NetworkConfig × Bool
  | s, net, [] => (s, net, false)
  | s, net, xn :: krn =>
    if netWants net flags loopback xn then
      if (s.krNetRedistAdd rtableid { net with rd := xn.rd } xn.attrset true).2 then
        ((s.krNetRedistAdd rtableid { net with rd := xn.rd } xn.attrset true).1,
          { net with rd := xn.rd }, true)
      else krNetMatch rtableid flags loopback
        (s.krNetRedistAdd rtableid { net with rd := xn.rd } xn.attrset true).1
        { net with rd := xn.rd } krn
    else krNetMatch rtableid flags loopback s net krn

/-- The search value of `kr_redistribute`; the reference that the lookup of the label takes is given
    back at once. -/
def redistNet (kf : KrouteFull) : NetworkConfig :=
  { dst := kf.dst
    prefixlen := kf.prefixlen
    rtlabel := (name2id s.labels kf.label).1
    priority := kf.priority }

/-- The labels after `kr_redistribute` looked one up. -/
def touchLabel (name : String) : Krs :=
  { s with labels := unref (name2id s.labels name).2 (name2id s.labels name).1 }

/-- `kr_redistribute` -/
def krRedistribute (type : NetworkMsg) (rtableid : ℕ) (kf : KrouteFull) : Krs :=
  let net := s.redistNet kf
  let s₁ := s.touchLabel kf.label
  if type = .remove then s₁.krNetRedistDel rtableid net true
  else if kf.flags.bgpd then s₁
  else
    match plainFamily kf.dst.aid, s₁.ktableGet rtableid with
    | some f, some kt =>
      if notRedistributable f kf.dst.addr then s₁
      else if kf.prefixlen = 0 then s₁
      else
        let r := krNetMatch rtableid kf.flags (isLoopback f kf.nexthop.addr) s₁ net kt.krn
        if r.2.2 then r.1 else r.1.krNetRedistDel rtableid r.2.1 true
    | _, _ => s₁

/-! ## Insertion -/

/-- The route that is linked next: it takes a reference to its label. -/
def nextKroute (f : Family) (kf : KrouteFull) : Kroute :=
  newKroute f kf s.alloc (name2id s.labels kf.label).1

/-- The new route is linked into its tree. -/
def linkKroute (rtableid : ℕ) (f : Family) (kf : KrouteFull) : Krs :=
  { s.modifyTable rtableid fun kt =>
      kt.setTree f (linkRoute (s.nextKroute f kf) (kt.tree f)).1 with
    labels := (name2id s.labels kf.label).2
    alloc := s.alloc + 1 }

/-- There is a route of the same prefix already. -/
def isMultipath (rtableid : ℕ) (f : Family) (kf : KrouteFull) : Bool :=
  match s.ktableGet rtableid with
  | none => false
  | some kt => (linkRoute (s.nextKroute f kf) (kt.tree f)).2

/-- The first part of `kroute_insert`: the route is linked and, if it is ours, sent to the
    kernel. -/
def insertKroute (rtableid : ℕ) (f : Family) (kf : KrouteFull) : Krs :=
  if kf.flags.bgpd then
    (s.linkKroute rtableid f kf).sendInserted env .add rtableid f s.alloc kf
  else s.linkKroute rtableid f kf

/-- The second part: nexthops that the route covers may have a better route now. -/
def insertNexthops (nh : ℕ) (kf : KrouteFull) : Krs :=
  if s.cflags.nexthopBgp ∨ !kf.flags.bgpd then
    s.validateAll nh fun kn => prefixMatch kf.dst kf.prefixlen kn.nexthop
  else s

/-- `kroute_insert` into a table whose nexthops are in `nh`: the state and the result. Routes of
    other address families are not kept. -/
def krouteInsert (rtableid nh : ℕ) (kf : KrouteFull) : Krs × Int :=
  if isVpn kf.dst.aid ∧ kf.labelstack.length ≠ 3 then (s, -1)
  else
    match familyOf kf.dst.aid with
    | none =>
      let s₂ := s.insertNexthops nh kf
      (if kf.flags.bgpd then s₂ else s₂.krRedistribute .add rtableid kf, 0)
    | some f =>
      let s₂ := (s.insertKroute env rtableid f kf).insertNexthops nh kf
      -- redistribute multipath routes only once
      (if kf.flags.bgpd ∨ s.isMultipath rtableid f kf then s₂
        else s₂.krRedistribute .add rtableid kf, 0)

/-! ## Removal -/

/-- The nexthops that depend on a route that was taken out look for another one. -/
def removeNexthops (nh : ℕ) (krm : Kroute) : Krs :=
  if krm.flags.nexthop then s.validateAll nh fun kn => kn.kroute = some krm.ptr else s

/-- The reference of a route to its label is given back, and the route freed. -/
def freeKroute (krm : Kroute) : Krs := { s with labels := unref s.labels krm.labelid }

/-- The end of `kroute_remove`, with the route that is gone as `kf`. -/
def removeDone (rtableid : ℕ) (multipath : Bool) (kf : KrouteFull) : Krs :=
  let s₁ := if kf.flags.bgpdInserted then (s.sendRtmsg env .delete rtableid kf).1 else s
  -- remove only once all multipath routes are gone
  if !kf.flags.bgpd ∧ !multipath then s₁.krRedistribute .remove rtableid kf else s₁

/-- A route is taken out of its tree and freed. -/
def removeKroute (rtableid nh : ℕ) (f : Family) (krm : Kroute) (t : KrouteTree) : Krs :=
  ((s.modifyTable rtableid fun kt => kt.setTree f t).removeNexthops nh krm).freeKroute krm

/-- What `kroute4_remove` returns as `*kf`: the nexthops have given up the flag, and the label is
    read before it is released. -/
def removedFull (f : Family) (krm : Kroute) : KrouteFull :=
  s.krTofull f { krm with flags := { krm.flags with nexthop := false } }

/-- `kroute_remove` from a table whose nexthops are in `nh`: the state and the result. `any` asks
    for the first route whatever its gateway is. -/
def krouteRemove (rtableid nh : ℕ) (kf : KrouteFull) (any : Bool) : Krs × Int :=
  match familyOf kf.dst.aid, s.ktableGet rtableid with
  | some f, some kt =>
    match removeFrom (kt.tree f) f kf any with
    | .missing => (s, 0)
    | .wrongType kr =>
      (if kf.flags.bgpd then s
        else s.updateKroute rtableid f kr.ptr fun kr =>
          { kr with flags := { kr.flags with bgpdInserted := false } }, 0)
    | .lost t => (s.modifyTable rtableid fun kt => kt.setTree f t, -1)
    | .route krm t multipath =>
      ((s.removeKroute rtableid nh f krm t).removeDone env rtableid multipath
        (s.removedFull f krm), 0)
  | _, _ => if kf.dst.aid = some .evpn then (s, 0) else (s, -1)

end Krs

end Bgpd.Fib
