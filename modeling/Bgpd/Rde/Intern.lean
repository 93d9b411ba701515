import Bgpd.Lib.Intern
import Bgpd.Rde.UpdateMsg

/-!
# Interned Attributes

Model of the caches of the RDE: `path_getcache` in `rde_rib.c`, `communities_lookup` and
`communities_link` in `rde_community.c` and `adjout_attr_get` in `rde_adjout.c`, with what
changes the values that are interned: `attr_optadd`, `attr_free` and `attr_copy` in `rde_attr.c`,
and the functions that insert and delete communities.

`SipHash24` with the key of a table and `ch_qhash64` are arbitrary functions. The address of a new
object is an argument. Optional attributes are interned themselves, so that their addresses are
compared for what they contain.

## Layout

- `PathRep`: an `rde_aspath` with its array of attributes
- `CommRep`: an `rde_community` with its stored hash
- `cacheStep`: the caches
-/

namespace Bgpd.Rde.Cache

open Bgpd.Lib

/-! ## Paths -/

/-- `bin_of` -/
def binOf (size linear subbin : ℕ) : ℕ :=
  let shift := Nat.log2 (size ||| 2 ^ linear) - subbin
  (size + (2 ^ shift - 1)) / 2 ^ shift * 2 ^ shift

/-- `bin_of_attrs` -/
def binOfAttrs (count : ℕ) : ℕ := binOf count 5 3

theorem le_binOf (size linear subbin : ℕ) : size ≤ binOf size linear subbin := by
  unfold binOf
  dsimp only
  generalize Nat.log2 (size ||| 2 ^ linear) - subbin = shift
  have hpos : 0 < 2 ^ shift := Nat.two_pow_pos shift
  have hlt := Nat.lt_div_mul_add (a := size + (2 ^ shift - 1)) hpos
  omega

theorem length_attrOptadd (new : Attr) (others : List Attr) :
    (attrOptadd new others).length ≤ others.length + 1 := by
  induction others with
  | nil => exact Nat.le_refl _
  | cons a rest ih =>
    unfold attrOptadd
    split_ifs
    · exact Nat.le_succ _
    · exact Nat.le_refl _
    · exact Nat.succ_le_succ ih

/-- `struct rde_aspath` with the size of the array `others`, whose last slots may be empty. -/
structure PathRep where
  path : RdeAspath
  othersLen : ℕ
  fits : path.others.length ≤ othersLen
  le : othersLen ≤ 255

namespace PathRep

/-- `path_prep` -/
def prep : PathRep := ⟨{ origin := 2, lpref := 100 }, 0, Nat.le_refl _, Nat.zero_le _⟩

/-- A change of the other fields: flags, numbers and the AS path. -/
def setPath (p : PathRep) (path : RdeAspath) : PathRep :=
  ⟨{ path with others := p.path.others }, p.othersLen, p.fits, p.le⟩

/-- `attr_optadd`: `none` if the attribute is there already, or if there are too many. -/
def optadd (p : PathRep) (new : Attr) : Option PathRep :=
  if (attrOptget p.path.others new.type).isSome then none
  else if hfit : p.path.others.length < p.othersLen then
    some ⟨{ p.path with others := attrOptadd new p.path.others }, p.othersLen,
      (length_attrOptadd _ _).trans hfit, p.le⟩
  else if hmax : p.othersLen = 255 then none
  else
    -- no empty slot found, need to realloc
    some ⟨{ p.path with others := attrOptadd new p.path.others },
      min (binOfAttrs (p.othersLen + 1)) 255,
      (length_attrOptadd _ _).trans (Nat.le_min.mpr
        ⟨(Nat.succ_le_succ p.fits).trans (le_binOf _ _ _),
          (Nat.succ_le_succ p.fits).trans (Nat.lt_of_le_of_ne p.le hmax)⟩),
      Nat.min_le_right _ _⟩

/-- `attr_free` of the attribute with a type. The slot may be reused soon. -/
def free (p : PathRep) (type : ℕ) : PathRep :=
  ⟨{ p.path with others := Parse.attrFree type p.path.others }, p.othersLen,
    (List.length_filter_le _ _).trans p.fits, p.le⟩

end PathRep

/-- `attr_equal` -/
def attrEqual (a b : PathRep) : Bool :=
  a.othersLen = b.othersLen ∧ a.path.others = b.path.others

/-- `path_equal` -/
def pathEqual (a b : PathRep) : Bool :=
  a.path.flags = b.path.flags ∧ a.path.origin = b.path.origin ∧ a.path.med = b.path.med ∧
    a.path.lpref = b.path.lpref ∧ a.path.weight = b.path.weight ∧
    a.path.rtlabelid = b.path.rtlabelid ∧ a.path.pftableid = b.path.pftableid ∧
    a.path.aspath = b.path.aspath ∧ attrEqual a b

/-- `attr_calc_hash` -/
def attrCalcHash (sip : List ℕ → ℕ) (a : Attr) : ℕ := sip (a.data ++ [a.type])

/-- `path_calc_hash` -/
def pathCalcHash (sip : List ℕ → ℕ) (p : PathRep) : ℕ :=
  sip (p.path.others.map (attrCalcHash sip) ++
    ((Msg.aspathDump p.path.aspath).map UInt8.toNat ++
      [p.path.med, p.path.lpref, p.path.weight, p.path.rtlabelid, p.path.pftableid,
        p.path.origin]))

theorem pathEqual_iff {a b : PathRep} :
    pathEqual a b = true ↔ a.path = b.path ∧ a.othersLen = b.othersLen := by
  obtain ⟨⟨_, _, _, _, _, _, _, _, _⟩, _, _, _⟩ := a
  obtain ⟨⟨_, _, _, _, _, _, _, _, _⟩, _, _, _⟩ := b
  simp only [pathEqual, attrEqual, decide_eq_true_eq, RdeAspath.mk.injEq]
  tauto

/-- The lookup in `pathtable`. -/
def pathKey (sip : List ℕ → ℕ) : InternKey PathRep RdeAspath where
  content := PathRep.path
  hash := pathCalcHash sip
  eq := pathEqual
  eq_sound _ _ h := (pathEqual_iff.mp h).1

/-! ## Communities -/

/-- `struct rde_community` with `PARTIAL_DIRTY` and the stored hash. -/
structure CommRep where
  comm : Msg.RdeCommunity := {}
  dirty : Bool := false
  hash : ℕ := 0
  deriving DecidableEq

namespace CommRep

/-- New communities; only a change of the array makes them dirty. -/
def setCommunities (c : CommRep) (communities : List Community) : CommRep :=
  if communities = c.comm.communities then c
  else { c with comm := { c.comm with communities := communities }, dirty := true }

/-- `insert_community` -/
def insert (c : CommRep) (x : Community) : CommRep :=
  c.setCommunities (Filter.insertCommunity x c.comm.communities)

/-- `community_delete` -/
def delete (c : CommRep) (fc : Community) (peer : Communities.PeerAs) : CommRep :=
  c.setCommunities (Filter.communityDelete c.comm.communities fc peer)

end CommRep

/-- The flags that are hashed, without `PARTIAL_DIRTY`. -/
def partialFlags (c : Msg.RdeCommunity) : ℕ :=
  (if c.partialBasic then 1 else 0) + (if c.partialLarge then 2 else 0) +
    if c.partialExt then 4 else 0

/-- The hash of communities that were changed. -/
def commHash (sip : List ℕ → ℕ) (c : Msg.RdeCommunity) : ℕ :=
  sip ((c.communities.flatMap fun x => [x.flags, x.data1, x.data2, x.data3]) ++ [partialFlags c])

/-- `communities_calc_hash` -/
def communitiesCalcHash (sip : List ℕ → ℕ) (c : CommRep) : CommRep :=
  if c.dirty then { c with dirty := false, hash := commHash sip c.comm } else c

/-- `communities_equal` -/
def communitiesEqual (a b : CommRep) : Bool := a.comm = b.comm ∧ a.dirty = b.dirty

/-- The lookup in `commtable`. -/
def commKey : InternKey CommRep Msg.RdeCommunity where
  content := CommRep.comm
  hash := CommRep.hash
  eq := communitiesEqual
  eq_sound _ _ h := (of_decide_eq_true h).1

/-! ## The caches -/

/-- What `struct adjout_attr` points to. -/
structure AdjoutKey where
  asp : Ptr
  comm : Ptr
  nexthop : Option BgpdAddr
  deriving DecidableEq

/-- `adjout_attr_eq` -/
def adjoutAttrEq (a b : AdjoutKey) : Bool :=
  a.asp = b.asp ∧ a.comm = b.comm ∧ a.nexthop = b.nexthop

theorem adjoutAttrEq_iff {a b : AdjoutKey} : adjoutAttrEq a b = true ↔ a = b := by
  obtain ⟨_, _, _⟩ := a
  obtain ⟨_, _, _⟩ := b
  simp [adjoutAttrEq]

/-- The two hash functions. -/
structure Hashes where
  sip : List ℕ → ℕ
  qhash : AdjoutKey → ℕ

/-- The lookup in the table of `adjout_attr`. -/
def adjoutKey (hashes : Hashes) : InternKey AdjoutKey AdjoutKey where
  content := id
  hash := hashes.qhash
  eq := adjoutAttrEq
  eq_sound _ _ h := adjoutAttrEq_iff.mp h

/-- The three tables. A reference that the cache of communities holds itself is not counted. -/
structure Caches where
  paths : List (Interned PathRep) := []
  comms : List (Interned CommRep) := []
  adjout : List (Interned AdjoutKey) := []

namespace Caches

variable (s : Caches)

/-- The references of a path that are held by `adjout_attr` objects. -/
def heldPath (a : Ptr) : ℕ := s.adjout.countP fun e => e.val.asp = a

/-- The references of communities that are held by `adjout_attr` objects. -/
def heldComm (a : Ptr) : ℕ := s.adjout.countP fun e => e.val.comm = a

/-- `adjout_attr_get`, with `adjout_attr_alloc` if there is no such object. -/
def adjoutAttrGet (hashes : Hashes) (pa ca aa : Ptr) (v : PathRep) (c : CommRep)
    (nexthop : Option BgpdAddr) : Option Caches := do
  let (asp, paths) ← (pathKey hashes.sip).get pa v s.paths
  let (comm, comms) ← commKey.get ca (communitiesCalcHash hashes.sip c) s.comms
  let needle : AdjoutKey := ⟨asp, comm, nexthop⟩
  match (adjoutKey hashes).find needle s.adjout with
  | some _ => return { s with paths := paths, comms := comms }
  | none =>
    let (_, adjout) ← (adjoutKey hashes).get aa needle s.adjout
    return ⟨InternKey.ref asp paths, InternKey.ref comm comms, adjout⟩

/-- `adjout_attr_unref`, with `adjout_attr_free` for the last reference. -/
def adjoutAttrUnref (a : Ptr) : Option Caches := do
  let e ← s.adjout.find? fun e => e.addr = a
  if e.refcnt ≤ 1 then
    return ⟨InternKey.unref e.val.asp s.paths, InternKey.unref e.val.comm s.comms,
      s.adjout.filter fun e => e.addr ≠ a⟩
  else return { s with adjout := InternKey.unref a s.adjout }

end Caches

/-- What happens to the caches. The last arguments are the addresses of new objects. -/
inductive CacheEvent where
  | pathGetcache (v : PathRep) (addr : Ptr)
  | pathRef (a : Ptr)
  | pathUnref (a : Ptr)
  /-- `communities_lookup`, and `communities_link` if nothing is found. -/
  | communitiesGet (c : CommRep) (addr : Ptr)
  | communitiesRef (a : Ptr)
  | communitiesUnref (a : Ptr)
  | adjoutAttrGet (v : PathRep) (c : CommRep) (nexthop : Option BgpdAddr) (pa ca aa : Ptr)
  | adjoutAttrRef (a : Ptr)
  | adjoutAttrUnref (a : Ptr)

/-- A reference is given back by someone who has one, beside those of `adjout_attr` objects. -/
def canUnref {V : Type} (t : List (Interned V)) (a held : ℕ) : Bool :=
  t.any fun e => e.addr = a ∧ held < e.refcnt

/-- One event. -/
def cacheStep (hashes : Hashes) (s : Caches) : CacheEvent → Option Caches
  | .pathGetcache v addr =>
    ((pathKey hashes.sip).get addr v s.paths).map fun x => { s with paths := x.2 }
  | .pathRef a => some { s with paths := InternKey.ref a s.paths }
  | .pathUnref a =>
    if canUnref s.paths a (s.heldPath a) then some { s with paths := InternKey.unref a s.paths }
    else none
  | .communitiesGet c addr =>
    (commKey.get addr (communitiesCalcHash hashes.sip c) s.comms).map fun x =>
      { s with comms := x.2 }
  | .communitiesRef a => some { s with comms := InternKey.ref a s.comms }
  | .communitiesUnref a =>
    if canUnref s.comms a (s.heldComm a) then some { s with comms := InternKey.unref a s.comms }
    else none
  | .adjoutAttrGet v c nexthop pa ca aa => s.adjoutAttrGet hashes pa ca aa v c nexthop
  | .adjoutAttrRef a => some { s with adjout := InternKey.ref a s.adjout }
  | .adjoutAttrUnref a => s.adjoutAttrUnref a

end Bgpd.Rde.Cache
