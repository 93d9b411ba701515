import Bgpd.Rde.Community
import Bgpd.Rde.Decide

/-!
# Messages to the FIB

`rde_send_kroute` tells the parent process about a change of the best path of a destination:
the parent keeps the routes of each routing table and passes them on to the kernel. The model
has the messages as values, and the tables that result from taking them one after the other.

Best paths are reported by `prefix_evaluate` and `prefix_evaluate_nexthop`. A run is a
sequence of these calls for the entries of one RIB.
-/

namespace Bgpd.Rde

/-! ## Messages -/

/-- `struct l3vpn`, with the fields that an import needs. -/
structure L3vpn where
  rtableid : ℕ
  ifmpe : String := ""
  /-- The communities of the set `rde_import`. -/
  rdeImport : Option (List Community) := none
  deriving DecidableEq, Repr

/-- `rde_l3vpn_import` -/
def rdeL3vpnImport (comm : List Community) (rd : L3vpn) : Bool :=
  match rd.rdeImport with
  | none => false
  | some set => set.any fun s => Communities.communityMatch comm s none

/-- `IMSG_KROUTE_CHANGE` and `IMSG_KROUTE_DELETE` -/
inductive KrouteType where
  | change | delete
  deriving DecidableEq, Repr

/-- `struct kroute_full`, with the fields that `rde_send_kroute` sets. -/
structure KrouteFull where
  pt : PtEntry
  nexthop : BgpdAddr := {}
  label : String := ""
  /-- `F_REJECT` and `F_BLACKHOLE` -/
  reject : Bool := false
  blackhole : Bool := false
  ifindex : ℕ := 0
  deriving DecidableEq, Repr

/-- A message for a routing table. -/
structure KrouteMsg where
  type : KrouteType
  rtableid : ℕ
  kf : KrouteFull
  deriving DecidableEq, Repr

/-- What `rde_send_kroute` reads besides the two paths. -/
structure KrouteCtx where
  flags : RibFlags := {}
  /-- `F_RIB_LOCAL` -/
  ribLocal : Bool := true
  rtableid : ℕ := 0
  l3vpns : List L3vpn := []
  /-- `rtlabel_id2name` -/
  rtlabelId2name : ℕ → String := fun _ => ""
  /-- `if_nametoindex` -/
  ifNametoindex : String → ℕ := fun _ => 0

/-- `prefix_aspath(p)->flags & F_PREFIX_ANNOUNCED` -/
def Prefix.announced (p : Prefix) : Bool := p.asp.flags.announced

/-- There is no path, or it was announced by ourselves. -/
def noFibPath (p : Option Prefix) : Bool := p.all Prefix.announced

/-- The route for a path. `none` if the nexthop is a `NULL` pointer. -/
def krouteFull (k : KrouteCtx) (p : Prefix) : Option KrouteFull :=
  p.nexthop.map fun nh =>
    { pt := p.pt
      nexthop := nh
      label := k.rtlabelId2name p.asp.rtlabelid
      reject := p.nhflags = { reject := true }
      blackhole := p.nhflags = { blackhole := true } }

/-- The end of `rde_send_kroute`, where the tables are chosen. -/
def krouteMsgs (k : KrouteCtx) (type : KrouteType) (kf : KrouteFull) (comm : List Community) :
    List KrouteMsg :=
  -- XXX FIB can not handle non-IPv4 nexthop
  let type := if (kf.pt.aid = .vpn4 ∨ kf.pt.aid = .inet) ∧ kf.nexthop.aid ≠ some .inet then .delete
    else type
  if kf.pt.aid = .vpn4 ∨ kf.pt.aid = .vpn6 then
    -- not Loc-RIB, no update for VPNs
    if !k.ribLocal then []
    else (k.l3vpns.filter (rdeL3vpnImport comm)).map fun vpn =>
      ⟨type, vpn.rtableid, { kf with ifindex := k.ifNametoindex vpn.ifmpe }⟩
  else [⟨type, k.rtableid, kf⟩]

/-- `rde_send_kroute`: the messages that are sent. `none` stands for the access through a
    `NULL` pointer if a path that is not announced by ourselves has no nexthop. -/
def rdeSendKroute (k : KrouteCtx) (new old : Option Prefix) : Option (List KrouteMsg) :=
  -- if both prefixes are unreachable no update is needed
  if noFibPath old && noFibPath new then some []
  else if noFibPath new then
    old.map fun p => krouteMsgs k .delete { pt := p.pt } p.communities
  else
    new.bind fun p => (krouteFull k p).map fun kf => krouteMsgs k .change kf p.communities

/-! ## Tables -/

/-- The routes of all routing tables. -/
abbrev Fib := ℕ → PtEntry → Option KrouteFull

/-- One message. -/
def Fib.apply (fib : Fib) (m : KrouteMsg) : Fib := fun rtable pt =>
  if rtable = m.rtableid ∧ pt = m.kf.pt then
    match m.type with
    | .change => some m.kf
    | .delete => none
  else fib rtable pt

/-- The messages of one call. -/
def Fib.applyAll (fib : Fib) (msgs : List KrouteMsg) : Fib := msgs.foldl Fib.apply fib

/-! ## Runs -/

/-- The entries of one RIB, and the tables. -/
structure FibState where
  rib : PtEntry → List Prefix := fun _ => []
  fib : Fib := fun _ _ => none

/-- A call of `prefix_evaluate` or `prefix_evaluate_nexthop` for an entry of the RIB. -/
inductive FibEvent where
  | evaluate (c : DecideCtx) (evaluateAll : Bool) (pt : PtEntry) (new old : Option Prefix)
  | nexthop (c : DecideCtx) (evaluateAll : Bool) (pt : PtEntry) (p : Prefix)
      (state oldstate : NexthopState)

namespace FibEvent

def pt : FibEvent → PtEntry
  | evaluate _ _ pt _ _ => pt
  | nexthop _ _ pt _ _ _ => pt

/-- What the call does to a list of paths. -/
def evaluation (flags : RibFlags) (h : List Prefix) : FibEvent → Option Evaluation
  | evaluate c all _ new old => prefixEvaluate c flags all h new old
  | nexthop c all _ p state oldstate =>
    some (prefixEvaluateNexthop c flags all h p state oldstate)

/-- The two paths of the call of `rde_send_kroute`, if there is one. -/
def krouteArgs (flags : RibFlags) (h : List Prefix) (e : FibEvent) :
    Option (Option Prefix × Option Prefix) :=
  (e.evaluation flags h).bind (·.kroute)

/-- What the callers see to: the old path is listed, the new one is not and is for the
    destination, and path ids are not 0. -/
def Ok (h : List Prefix) : FibEvent → Prop
  | evaluate _ _ pt new old =>
    (new.isSome ∨ old.isSome) ∧ (∀ o ∈ old, o.core ∈ h.map Prefix.core) ∧
      ∀ n ∈ new, n.ptr ∉ h.map (·.ptr) ∧ n.pt = pt ∧ n.pathIdTx ≠ 0
  | nexthop _ _ _ p _ _ => p ∈ h

instance (h : List Prefix) (e : FibEvent) : Decidable (e.Ok h) := by
  cases e <;> unfold Ok <;> infer_instance

end FibEvent

/-- The messages of a call. -/
def Evaluation.messages (k : KrouteCtx) (ev : Evaluation) : Option (List KrouteMsg) :=
  match ev.kroute with
  | none => some []
  | some (new, old) => rdeSendKroute k new old

/-- A step of a run. -/
def fibStep (k : KrouteCtx) (s : FibState) (e : FibEvent) : Option FibState := do
  let ev ← e.evaluation k.flags (s.rib e.pt)
  let msgs ← ev.messages k
  some { rib := Function.update s.rib e.pt ev.h, fib := s.fib.applyAll msgs }

end Bgpd.Rde
