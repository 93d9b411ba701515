import Mathlib.Tactic

/-!
# Data Model of the Route Decision Engine

The records of `bgpd.h` and `rde.h` that the decision process, the RIBs and the
Adj-RIB-Out work on. Numbers of fixed width are only compared and stored by the functions
modelled here, so they are natural numbers. Bit fields are records of flags, one field a
bit. Objects that the C code interns and compares by address (AS paths, communities,
nexthops) are compared by their content.

Fields that no modelled function reads (reference counts, hashes, statistics, log names)
are left out.
-/

namespace Bgpd.Rde

/-! ## Addresses -/

/-- The address families `AID_INET` to `AID_EVPN`. `AID_UNSPEC` is `none : Option Aid`. -/
inductive Aid where
  | inet | inet6 | vpn4 | vpn6 | flowspec4 | flowspec6 | evpn
  deriving DecidableEq, Repr

namespace Aid

/-- All address families, in the order `AID_MIN` to `AID_MAX`. -/
def all : List Aid := [inet, inet6, vpn4, vpn6, flowspec4, flowspec6, evpn]

theorem mem_all (a : Aid) : a ∈ all := by cases a <;> decide

instance : Fintype Aid := Fintype.ofList all mem_all

/-- The numeric value of the constant. -/
def val : Aid → ℕ
  | inet => 1
  | inet6 => 2
  | vpn4 => 3
  | vpn6 => 4
  | flowspec4 => 5
  | flowspec6 => 6
  | evpn => 7

/-- The families whose entries live in `flowrib` and not in the RIB tree. -/
def isFlowspec : Aid → Bool
  | flowspec4 | flowspec6 => true
  | _ => false

end Aid

/-- `struct bgpd_addr`. `addr` is the address read as one big-endian number, so that
    numeric order is `memcmp` order; `aid = none` is `AID_UNSPEC`. -/
structure BgpdAddr where
  aid : Option Aid := none
  addr : ℕ := 0
  scopeId : ℕ := 0
  deriving DecidableEq, Repr, Inhabited

/-- The number `aid` is compared as. -/
def BgpdAddr.aidVal (a : BgpdAddr) : ℕ := (a.aid.map Aid.val).getD 0

/-! ## Path attributes -/

/-- The segment types of an AS path. -/
inductive SegType where
  | asSet | asSequence | asConfedSequence | asConfedSet
  deriving DecidableEq, Repr

/-- One segment of an AS path. -/
structure AsSegment where
  type : SegType
  ases : List ℕ
  deriving DecidableEq, Repr

/-- `struct aspath`, as the list of its segments. -/
abbrev Aspath := List AsSegment

/-- `aspath_count`: the cached `ascnt`; a set counts as one hop. -/
def aspathCount : Aspath → ℕ
  | [] => 0
  | s :: rest => (if s.type = .asSet then 1 else s.ases.length) + aspathCount rest

/-- `aspath_neighbor`: the first AS of the path. An empty path and one that does not start
    with a sequence count as the local AS. -/
def aspathNeighbor (localAs : ℕ) : Aspath → ℕ
  | [] => localAs
  | s :: _ => if s.type = .asSequence then s.ases.headD 0 else localAs

/-- `struct attr`: an attribute kept as bytes. -/
structure Attr where
  flags : ℕ
  type : ℕ
  data : List ℕ
  deriving DecidableEq, Repr

/-- `ATTR_ORIGINATOR_ID` -/
def attrOriginatorId : ℕ := 9

/-- `ATTR_CLUSTER_LIST` -/
def attrClusterList : ℕ := 10

/-- `ATTR_OTC` -/
def attrOtc : ℕ := 35

/-- `rde_aspath.flags` without `F_ATTR_LINKED`. `seen` collects the bits that only say
    which attributes were parsed; they are compared but not tested. -/
structure AspathFlags where
  seen : ℕ := 0
  attrMed : Bool := false
  medAnnounce : Bool := false
  loop : Bool := false
  announced : Bool := false
  dynamic : Bool := false
  otc : Bool := false
  otcLeak : Bool := false
  parseErr : Bool := false
  deriving DecidableEq, Repr

/-- `struct rde_aspath`, with the fields that `path_equal` compares. -/
structure RdeAspath where
  others : List Attr := []
  aspath : Aspath := []
  flags : AspathFlags := {}
  med : ℕ := 0
  lpref : ℕ := 100
  weight : ℕ := 0
  rtlabelid : ℕ := 0
  pftableid : ℕ := 0
  origin : ℕ := 0
  deriving DecidableEq, Repr

/-- `attr_optget`: the attribute of the given type; `others` is sorted by type and the
    search stops at the first larger one. -/
def attrOptget (others : List Attr) (type : ℕ) : Option Attr :=
  match others with
  | [] => none
  | a :: rest =>
    if type = a.type then some a
    else if type < a.type then none
    else attrOptget rest type

/-- The first four bytes of an attribute as a number in host order. -/
def be32 (data : List ℕ) : ℕ := (data.take 4).foldl (fun n b => n * 256 + b) 0

/-- `struct community` -/
structure Community where
  flags : ℕ
  data1 : ℕ
  data2 : ℕ
  data3 : ℕ := 0
  deriving DecidableEq, Repr

/-! ## Prefixes -/

/-- Identifier of a peer (`conf.id`). -/
abbrev PeerId := ℕ

/-- `PEER_ID_SELF`, the peer of the networks announced locally. -/
def peerself : PeerId := 1

/-- The address of a `struct prefix`; two pointers are equal iff they name one object. -/
abbrev Ptr := ℕ

/-- `struct pt_entry`: a destination. `data` stands for the bytes that depend on the
    address family. -/
structure PtEntry where
  aid : Aid
  data : ℕ
  prefixlen : ℕ
  deriving DecidableEq, Repr

/-- The bits of `prefix.nhflags` and `filterstate.nhflags` under `NEXTHOP_MASK`. -/
structure NhFlags where
  self : Bool := false
  reject : Bool := false
  blackhole : Bool := false
  nomodify : Bool := false
  deriving DecidableEq, Repr

/-- `struct prefix`: a path for a destination. -/
structure Prefix where
  /-- The address of the object. -/
  ptr : Ptr
  pt : PtEntry
  /-- `None` stands for the `NULL` the C code tests for. -/
  aspath : Option RdeAspath
  communities : List Community := []
  peer : PeerId
  nexthop : Option BgpdAddr := none
  lastchange : ℕ := 0
  pathId : ℕ := 0
  pathIdTx : ℕ := 0
  /-- `PREFIX_FLAG_FILTERED` -/
  filtered : Bool := false
  validationState : ℕ := 0
  nhflags : NhFlags := {}
  /-- `NEXTHOP_VALID` -/
  nhvalid : Bool := true
  dmetric : ℤ := 0
  deriving DecidableEq, Repr

/-- The values of `dmetric`. -/
def dmetricInvalid : ℤ := 1
def dmetricAsWide : ℤ := 3
def dmetricEcmp : ℤ := 4
def dmetricBest : ℤ := 5

/-- The path without its place in the decision: everything but `dmetric`. -/
def Prefix.core (p : Prefix) : Prefix := { p with dmetric := 0 }

@[simp] theorem Prefix.core_core (p : Prefix) : p.core.core = p.core := rfl
@[simp] theorem Prefix.core_ptr (p : Prefix) : p.core.ptr = p.ptr := rfl

end Bgpd.Rde
