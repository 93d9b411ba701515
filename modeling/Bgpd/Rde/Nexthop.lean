import Bgpd.Rde.Decide

/-!
# Nexthops

Model of the nexthop functions of `rde_rib.c`. A nexthop is looked up once and then shared by
all paths that use it. When its state changes, `nexthop_runner` goes through the list of its
paths, a number of them at a time, while paths come and go and further changes may arrive.

There is one object for an address, so an address stands for the object. Paths are known by
their address. `none` stands for a call that ends with `fatalx`.

## Layout

- `nexthopGet`, `nexthopRef`, `nexthopUnref`: references
- `nexthopLink`, `nexthopUnlink`: the list of paths
- `nexthopUpdate`, `nexthopRunner`: changes of the state
-/

namespace Bgpd.Rde.Nexthops

/-! ## State -/

/-- `struct nexthop`. `calloc` makes both states `NEXTHOP_LOOKUP`. -/
structure Nexthop where
  state : NexthopState := .lookup
  oldstate : NexthopState := .lookup
  refcnt : ℕ := 0
  prefixH : List Ptr := []
  nextPrefix : Option Ptr := none
  connected : Bool := false
  trueNexthop : BgpdAddr := {}
  net : BgpdAddr := {}
  netlen : ℕ := 0
  deriving DecidableEq, Repr

/-- The part of `struct prefix` that belongs to its nexthop. -/
structure NhPrefix where
  ptr : Ptr
  nexthop : Option BgpdAddr
  /-- `F_RIB_NOEVALUATE` of the RIB that the path is in. -/
  noevaluate : Bool := false
  /-- `NEXTHOP_VALID` -/
  nhvalid : Bool := false
  /-- `PREFIX_NEXTHOP_LINKED` -/
  linked : Bool := false
  deriving DecidableEq, Repr

/-- The nexthop table, the queue of the runner and the paths. -/
structure NhState where
  nexthops : BgpdAddr → Option Nexthop := fun _ => none
  runners : List BgpdAddr := []
  prefixes : List NhPrefix := []
  /-- Not in the source: the references that filter states, filter sets and networks hold. -/
  held : BgpdAddr → ℕ := fun _ => 0

namespace NhState

variable (s : NhState)

def setNexthop (a : BgpdAddr) (nh : Option Nexthop) : NhState :=
  { s with nexthops := Function.update s.nexthops a nh }

/-- A path is written. -/
def modify (p : Ptr) (f : NhPrefix → NhPrefix) : NhState :=
  { s with prefixes := s.prefixes.map fun x => if x.ptr = p then f x else x }

def prefix? (p : Ptr) : Option NhPrefix := s.prefixes.find? fun x => x.ptr = p

/-! ## References -/

/-- `nexthop_ref` -/
def nexthopRef (a : BgpdAddr) : NhState :=
  match s.nexthops a with
  | some nh => s.setNexthop a (some { nh with refcnt := nh.refcnt + 1 })
  | none => s

/-- `nexthop_get`: a new nexthop has a reference for its lookup. -/
def nexthopGet (a : BgpdAddr) : NhState :=
  let s := match s.nexthops a with
    | some _ => s
    | none => (s.setNexthop a (some {})).nexthopRef a
  s.nexthopRef a

/-- `nexthop_unref`. The last reference frees the nexthop. -/
def nexthopUnref (a : BgpdAddr) : Option NhState :=
  match s.nexthops a with
  | none => none
  | some nh =>
    let nh := { nh with refcnt := nh.refcnt - 1 }
    if nh.refcnt > 0 then some (s.setNexthop a (some nh))
    -- sanity check
    else if nh.prefixH ≠ [] ∨ nh.state = .lookup then none
    -- is nexthop update running? impossible, that is a refcnt error
    else if nh.nextPrefix.isSome then none
    else some (s.setNexthop a none)

/-! ## Paths -/

/-- `LIST_NEXT` -/
def listNext (p : Ptr) : List Ptr → Option Ptr
  | [] => none
  | x :: rest => if x = p then rest.head? else listNext p rest

/-- `nexthop_link` -/
def nexthopLink (x : NhPrefix) : NhState :=
  -- no need to link prefixes in RIBs that have no decision process
  if x.noevaluate then s.modify x.ptr fun x => { x with nhvalid := false }
  else
    match x.nexthop with
    -- self-announce networks use nexthop NULL and are valid as well
    | none => s.modify x.ptr fun x => { x with nhvalid := true }
    | some a =>
      match s.nexthops a with
      | none => s
      | some nh =>
        (s.setNexthop a (some { nh with prefixH := x.ptr :: nh.prefixH })).modify x.ptr fun x =>
          { x with nhvalid := decide (nh.state = .reach), linked := true }

/-- `nexthop_unlink` -/
def nexthopUnlink (x : NhPrefix) : NhState :=
  let s := s.modify x.ptr fun x => { x with nhvalid := false }
  match x.nexthop with
  | none => s
  | some a =>
    match s.nexthops a with
    | none => s
    | some nh =>
      if x.linked = false then s
      else
        let next := if nh.nextPrefix = some x.ptr then listNext x.ptr nh.prefixH else nh.nextPrefix
        -- remove nexthop from list if no prefixes left to update
        let runners := if nh.nextPrefix = some x.ptr ∧ next = none then s.runners.erase a
          else s.runners
        let nh := { nh with nextPrefix := next, prefixH := nh.prefixH.erase x.ptr }
        { (s.setNexthop a (some nh)).modify x.ptr fun x => { x with linked := false } with
          runners := runners }

/-- The part of `prefix_link` that is about the nexthop. -/
def prefixLink (p : Ptr) (a : Option BgpdAddr) (noevaluate : Bool) : NhState :=
  let x : NhPrefix := { ptr := p, nexthop := a, noevaluate := noevaluate }
  let s := { s with prefixes := x :: s.prefixes }
  match a with
  | some a => (s.nexthopRef a).nexthopLink x
  | none => s.nexthopLink x

/-- The part of `prefix_unlink` that is about the nexthop, and `prefix_free`. -/
def prefixUnlink (x : NhPrefix) : Option NhState :=
  let s := s.nexthopUnlink x
  let s := { s with prefixes := s.prefixes.filter fun y => y.ptr ≠ x.ptr }
  match x.nexthop with
  | some a => s.nexthopUnref a
  | none => some s

/-! ## Updates -/

/-- The new value of `NEXTHOP_VALID` after `prefix_evaluate_nexthop`. -/
def prefixEvaluateNexthop (state oldstate : NexthopState) (x : NhPrefix) : NhPrefix :=
  if x.noevaluate then x
  -- the state of the nexthop did not change
  else if oldstate = state then x
  else { x with nhvalid := decide (state = .reach) }

/-- The loop of `nexthop_runner`. -/
def runLoop (nh : Nexthop) : ℕ → Option Ptr → NhState → NhState × Option Ptr
  | 0, p, s => (s, p)
  | _ + 1, none, s => (s, none)
  | n + 1, some p, s =>
    runLoop nh n (listNext p nh.prefixH) (s.modify p (prefixEvaluateNexthop nh.state nh.oldstate))

/-- `RDE_RUNNER_ROUNDS` -/
def rdeRunnerRounds : ℕ := 100

/-- `nexthop_runner` -/
def nexthopRunner : NhState :=
  match s.runners with
  | [] => s
  | a :: rest =>
    match s.nexthops a with
    | none => s
    | some nh =>
      let (s, p) := runLoop nh rdeRunnerRounds nh.nextPrefix s
      let s := s.setNexthop a (some { nh with nextPrefix := p })
      -- prep for next run, if not finished readd to tail of queue
      { s with runners := if p.isSome then rest ++ [a] else rest }

/-- `struct kroute_nexthop` -/
structure KrouteNexthop where
  nexthop : BgpdAddr
  valid : Bool
  connected : Bool := false
  gateway : BgpdAddr := {}
  net : BgpdAddr := {}
  netlen : ℕ := 0
  deriving DecidableEq, Repr

/-- The rest of `nexthop_update`, after the reference of the lookup is gone. -/
def nexthopRestart (msg : KrouteNexthop) (nh : Nexthop) : NhState :=
  -- the runner is not finished: ensure that all prefixes are updated
  let oldstate := if nh.nextPrefix.isSome then .flapped else nh.oldstate
  let runners := if nh.nextPrefix.isSome then s.runners.erase msg.nexthop else s.runners
  let nh := { nh with
    oldstate := oldstate
    connected := msg.connected
    trueNexthop := msg.gateway
    net := msg.net
    netlen := msg.netlen
    nextPrefix := nh.prefixH.head? }
  { s.setNexthop msg.nexthop (some nh) with
    runners := if nh.nextPrefix.isSome then msg.nexthop :: runners else runners }

/-- `nexthop_update` -/
def nexthopUpdate (msg : KrouteNexthop) : Option NhState :=
  match s.nexthops msg.nexthop with
  -- non-existent nexthop
  | none => some s
  | some nh =>
    let oldstate := nh.state
    let nh := { nh with oldstate := oldstate, state := if msg.valid then .reach else .unreach }
    let s := s.setNexthop msg.nexthop (some nh)
    if oldstate = .lookup then
      -- drop reference which was held during the lookup
      (s.nexthopUnref msg.nexthop).map fun s =>
        match s.nexthops msg.nexthop with
        -- nh lost last ref, no work left
        | none => s
        | some nh => s.nexthopRestart msg nh
    else some (s.nexthopRestart msg nh)

end NhState

/-! ## Events -/

/-- What happens to nexthops and their paths. The RIB of a path has the same flags in the whole run;
    that `rib_update` changes them is not an event. -/
inductive NhEvent where
  /-- A filter state, a filter set or a network takes a reference. -/
  | get (a : BgpdAddr)
  | ref (a : BgpdAddr)
  | unref (a : BgpdAddr)
  | prefixLink (p : Ptr) (a : Option BgpdAddr) (noevaluate : Bool)
  | prefixUnlink (p : Ptr)
  /-- A path that stays in its RIB is linked or unlinked, as `rde_softreconfig_sync_reeval` does. -/
  | link (p : Ptr)
  | unlink (p : Ptr)
  | update (msg : NhState.KrouteNexthop)
  | runner

def NhState.hold (s : NhState) (a : BgpdAddr) : NhState :=
  { s with held := Function.update s.held a (s.held a + 1) }

def NhState.release (s : NhState) (a : BgpdAddr) : NhState :=
  { s with held := Function.update s.held a (s.held a - 1) }

/-- One event. -/
def nhStep (s : NhState) : NhEvent → Option NhState
  | .get a => some ((s.nexthopGet a).hold a)
  | .ref a => some ((s.nexthopRef a).hold a)
  | .unref a => (s.release a).nexthopUnref a
  | .prefixLink p a noevaluate => some (s.prefixLink p a noevaluate)
  | .prefixUnlink p => (s.prefix? p).bind s.prefixUnlink
  | .link p => (s.prefix? p).map s.nexthopLink
  | .unlink p => (s.prefix? p).map s.nexthopUnlink
  | .update msg => s.nexthopUpdate msg
  | .runner => some s.nexthopRunner

/-- What the callers see to: a reference is dropped or passed on only by its holder, and a path
    is linked once. -/
def Callable (s : NhState) : NhEvent → Prop
  | .ref a | .unref a => 0 < s.held a
  | .prefixLink p a _ => s.prefix? p = none ∧ ∀ a' ∈ a, 0 < s.held a'
  | .prefixUnlink p | .unlink p => (s.prefix? p).isSome = true
  | .link p => ∃ x ∈ s.prefix? p, x.linked = false
  | _ => True

end Bgpd.Rde.Nexthops
