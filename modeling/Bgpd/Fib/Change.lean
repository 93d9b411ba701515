import Bgpd.Fib.Route

/-!
# Reports of the Kernel

The routes that the kernel reports: `kr_fib_change` enters a route or changes the one that is there,
`kr_fib_delete` removes one. For multipath routes the gateway tells which of them is meant.
-/

namespace Bgpd.Fib

open Lib
open Rde (Aid BgpdAddr)

/-! ## What a report changes -/

/-- The route that `kr_fib_change` changes: the one of the prefix or, for the change of a multipath
    route, the one with the gateway. A multipath route is not changed but added. -/
def fibTarget (t : KrouteTree) (f : Family) (kf : KrouteFull) (type : RtmType) (mpath : Bool) :
    Option Kroute :=
  match krouteFind t kf.dst.addr (f.scope kf.dst.scopeId) kf.prefixlen (some kf.priority) with
  | none => none
  | some n =>
    if mpath ∧ type = .change then krouteMatchgw n kf
    else if mpath ∧ type = .add then none
    else some n.kr

/-- The flags after the change: that nexthops depend on the route is not the kernel's to say. -/
def fibFlags (kf : KrouteFull) (kr : Kroute) : Flags :=
  { kf.flags with nexthop := kf.flags.nexthop || kr.flags.nexthop }

/-- What `kr_fib_change` writes into the route. -/
def fibKroute (f : Family) (kf : KrouteFull) (labelid : ℕ) (kr : Kroute) : Kroute :=
  { kr with
    nexthop := if kf.nexthop.aid = some f.aid then kf.nexthop.addr else 0
    nexthopScopeId := if kf.nexthop.aid = some f.aid then f.scope kf.nexthop.scopeId else 0
    ifindex := kf.ifindex
    labelid := labelid
    flags := fibFlags kf kr }

/-- The nexthop or the flags change. A route without gateway is compared by its address only. -/
def fibChanged (f : Family) (kf : KrouteFull) (kr : Kroute) : Bool :=
  (if kf.nexthop.aid = some f.aid then
      kr.nexthop ≠ kf.nexthop.addr ∨ kr.nexthopScopeId ≠ f.scope kf.nexthop.scopeId
    else kr.nexthop ≠ 0) || fibFlags kf kr ≠ kr.flags

namespace Krs

variable (env : Env) (s : Krs)

/-- The nodes of a tree of a table. -/
def treeOf (rtableid : ℕ) (f : Family) : KrouteTree :=
  match s.ktableGet rtableid with
  | none => []
  | some kt => kt.tree f

/-- The labels after the change: the lookup takes a reference, and the one to the old label is given
    back if it is another label. -/
def fibLabels (kf : KrouteFull) (kr : Kroute) : List N2idLabel :=
  if kr.labelid ≠ (name2id s.labels kf.label).1 then
    unref (name2id s.labels kf.label).2 kr.labelid
  else (name2id s.labels kf.label).2

/-- The route is written. -/
def fibWrite (rtableid : ℕ) (f : Family) (kf : KrouteFull) (kr : Kroute) : Krs :=
  { s.updateKroute rtableid f kr.ptr (fibKroute f kf (name2id s.labels kf.label).1) with
    labels := s.fibLabels kf kr }

/-- A changed route is redistributed again. -/
def fibRedistribute (rtableid : ℕ) (f : Family) (kr : Kroute) (cond : Bool) : Krs :=
  if cond then s.krRedistribute .add rtableid (s.krTofull f kr) else s

/-- The change of the route `kr` by a message of the kernel. -/
def fibUpdate (rtableid nh : ℕ) (f : Family) (kf : KrouteFull) (kr : Kroute) : Krs :=
  let labelid := (name2id s.labels kf.label).1
  let kr' := fibKroute f kf labelid kr
  let s₁ := s.fibWrite rtableid f kf kr
  let s₂ := s₁.fibRedistribute rtableid f kr' (kr.labelid ≠ labelid)
  let s₃ := s₂.fibRedistribute rtableid f kr' (kr.flags.connected && !kr'.flags.connected)
  let s₄ := s₃.fibRedistribute rtableid f kr' (kr'.flags.connected && !kr.flags.connected)
  if kr'.flags.nexthop ∧ fibChanged f kf kr then s₄.knexthopUpdate nh kf else s₄

/-- `kr_fib_change` -/
def krFibChange (rtableid nh : ℕ) (kf : KrouteFull) (type : RtmType) (mpath : Bool) : Krs :=
  match plainFamily kf.dst.aid, s.ktableGet rtableid with
  | some f, some kt =>
    if kf.flags.bgpd then
      match krouteFind (kt.tree f) kf.dst.addr (f.scope kf.dst.scopeId) kf.prefixlen
        (some kf.priority) with
      | none => (s.krouteInsert env rtableid nh kf).1
      | some n => s.updateKroute rtableid f n.kr.ptr fun kr =>
          { kr with flags := { kr.flags with bgpdInserted := false } }
    else
      match fibTarget (kt.tree f) f kf type mpath with
      | none => (s.krouteInsert env rtableid nh kf).1
      | some kr => s.fibUpdate rtableid nh f kf kr
  | _, _ => s

/-- `kr_fib_delete` -/
def krFibDelete (rtableid nh : ℕ) (kf : KrouteFull) (mpath : Bool) : Krs × Int :=
  s.krouteRemove env rtableid nh kf !mpath

end Krs

end Bgpd.Fib
