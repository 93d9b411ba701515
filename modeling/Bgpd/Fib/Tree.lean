import Bgpd.Fib.Types

/-!
# The Trees of Routes

A node of a tree holds the first route of its prefix, prefix length and priority; further routes,
to other gateways, hang from it in a list. Routes are found, linked and unlinked here, and changed
in place.

## Main definitions

- `krouteFind`, `krouteMatchgw`: the searches
- `linkRoute`, `unlinkRoute`, `updateRoute`: a route is linked, unlinked and changed in place
-/

namespace Bgpd.Fib

open Lib
open Rde (Aid BgpdAddr)

/-! ## Operations -/

/-- The routes of a node. -/
def Node.routes (n : Node) : List Kroute := n.kr :: n.next

/-- All routes of a tree. -/
def routes (t : KrouteTree) : List Kroute := t.flatMap Node.routes

/-- The comparison of two nodes. -/
def nodeCompare (a b : Node) : Int := krouteCompare a.kr b.kr

/-- The node compares equal to the search for a prefix; `none` is `RTP_ANY`. -/
def Node.hit (dst scopeId prefixlen : ℕ) (prio : Option ℕ+) (n : Node) : Bool :=
  n.kr.dst = dst ∧ n.kr.scopeId = scopeId ∧ n.kr.prefixlen = prefixlen ∧
    prio.all fun p => n.kr.priority = p

/-- `kroute_find` and `kroute6_find`: the first node of the prefix, which for `RTP_ANY` is that of
    the lowest priority. -/
def krouteFind (t : KrouteTree) (dst scopeId prefixlen : ℕ) (prio : Option ℕ+) : Option Node :=
  t.find? (Node.hit dst scopeId prefixlen prio)

/-- `kroute_matchgw` and `kroute6_matchgw` -/
def krouteMatchgw (n : Node) (kf : KrouteFull) : Option Kroute :=
  if kf.flags.connected then n.routes.find? fun kr => kr.ifindex = kf.ifindex
  else n.routes.find? fun kr =>
    kr.nexthop = kf.nexthop.addr ∧ kr.nexthopScopeId = kf.nexthop.scopeId

/-- A route is added to the end of the list of the node with its key. -/
def Node.hang (kr : Kroute) (n : Node) : Node :=
  if krouteCompare kr n.kr = 0 then { n with next := n.next ++ [kr] } else n

/-- `RB_INSERT` of a route, which hangs it from the list of the node that is there already; and
    whether there was one. -/
def linkRoute (kr : Kroute) (t : KrouteTree) : KrouteTree × Bool :=
  match rbInsert nodeCompare ⟨kr, []⟩ t with
  | some t' => (t', false)
  | none => (t.map (Node.hang kr), true)

/-- The route at `krm` is taken off the list of the node at `head`. -/
def Node.unhang (head krm : ℕ) (m : Node) : Node :=
  if m.kr.ptr = head then { m with next := m.next.filter fun k => k.ptr ≠ krm } else m

/-- The tree without the route `krm` of the node `n`, and whether routes of the node remain. A
    route of the list takes the place of the node; `none` if it finds the place taken. -/
def unlinkRoute (n : Node) (krm : Kroute) (t : KrouteTree) : KrouteTree × Option Bool :=
  if krm.ptr = n.kr.ptr then
    match n.next with
    | [] => (rbRemove nodeCompare n t, some false)
    | kr :: next =>
      match rbInsert nodeCompare ⟨kr, next⟩ (rbRemove nodeCompare n t) with
      | some t' => (t', some true)
      | none => (rbRemove nodeCompare n t, none)
  else (t.map (Node.unhang n.kr.ptr krm.ptr), some true)

/-- A change of the routes of a node. -/
def Node.map (f : Kroute → Kroute) (n : Node) : Node := ⟨f n.kr, n.next.map f⟩

/-- The change of the route at an address. -/
def atPtr (ptr : ℕ) (f : Kroute → Kroute) (kr : Kroute) : Kroute :=
  if kr.ptr = ptr then f kr else kr

/-- The route at an address is changed. -/
def updateRoute (ptr : ℕ) (f : Kroute → Kroute) (t : KrouteTree) : KrouteTree :=
  t.map (Node.map (atPtr ptr f))

end Bgpd.Fib
