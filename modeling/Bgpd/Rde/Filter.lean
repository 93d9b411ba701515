import Bgpd.Rde.Community
import Bgpd.Rde.RpkiReload
import Bgpd.Rde.Update

/-!
# Filter Rules

Model of `rde_filter.c`. A rule says for which peers it is, what a path has to match, what is
set and which action is taken. The last rule that matches decides, unless a `quick` rule does.

`rde_filter_calc_skip_steps` stores in every rule, for each of three criteria about the peer,
the next rule that has another value there. A place in the list stands for the address of a
rule, and the length of the list for `NULL`.

What `rde_apply_set` does is a parameter. The `ebgp` and `ibgp` fields are only ever 0 or 1.

## Layout

- `rdeFilterMatch`: what a path has to match
- `rdeFilterCalcSkipSteps`, `rdeFilter`: rules with skip steps
- `rdeFilterSkipRule`, `peerApplyOutFilter`, `rdeFilterOut`: rules that are compiled for a peer
-/

namespace Bgpd.Rde.Filter

open Bgpd.Rpki

/-! ## Matching -/

/-- The comparison operators of the rules. -/
inductive FilterOp where
  | none | eq | ne | range | xrange
  deriving DecidableEq, Repr

/-- `enum as_spec` without `AS_UNDEF`. -/
inductive AsSpec where
  | all | source | transit | peer | empty
  deriving DecidableEq, Repr

/-- What an AS number is compared with: the `AS_FLAG_*` bits. -/
inductive AsRef where
  | number
  | neighborAs
  | asSet (aset : List ℕ)
  /-- Should not happen. -/
  | asSetName
  deriving DecidableEq, Repr

/-- `struct filter_as` -/
structure FilterAs where
  type : AsSpec
  ref : AsRef := .number
  op : FilterOp := .none
  asMin : ℕ := 0
  asMax : ℕ := 0
  deriving DecidableEq, Repr

/-- `as_compare` -/
def asCompare (f : FilterAs) (as neighas : ℕ) : Bool :=
  match f.ref with
  | .asSetName => false
  | .asSet aset => as ∈ aset
  | .neighborAs => compare neighas
  | .number => compare f.asMin
where
  compare (match_ : ℕ) : Bool :=
    match f.op with
    | .none | .eq => as = match_
    | .ne => as ≠ match_
    | .range => f.asMin ≤ as ∧ as ≤ f.asMax
    | .xrange => as < f.asMin ∨ f.asMax < as

/-- The rightmost AS number of the last sequence. -/
def aspathSource (path : Aspath) : ℕ :=
  ((path.filter fun seg => seg.type = .asSequence).getLast?.map fun seg => seg.ases.getLastD 0).getD
    asNone

/-- `aspath_match`. The source is not part of the transit. -/
def aspathMatch (localAs : ℕ) (path : Aspath) (f : FilterAs) (neighas : ℕ) : Bool :=
  match f.type with
  | .empty => path.isEmpty
  | .peer => asCompare f (aspathNeighbor localAs path) neighas
  | .source => !path.isEmpty && asCompare f (aspathSource path) neighas
  | .all => (path.flatMap (·.ases)).any fun as => asCompare f as neighas
  | .transit => ((path.flatMap (·.ases)).dropLast).any fun as => asCompare f as neighas

/-- `enum aslen_spec` without `ASLEN_NONE`. -/
inductive AslenSpec where
  | max | seq
  deriving DecidableEq, Repr

/-- The inner loop of `aspath_lenmatch`: `none` is `return (1)`. -/
def aspathLenStep (aslen : ℕ) (set : Bool) (x : Option (ℕ × ℕ)) (as : ℕ) : Option (ℕ × ℕ) :=
  x.bind fun (lastas, count) =>
    if as = lastas then if aslen < count + 1 then none else some (as, count + 1)
    -- AS path 3 { 4 3 7 } 3 will have count = 3
    else if set then some (lastas, count)
    else some (as, 1)

/-- `aspath_lenmatch` -/
def aspathLenmatch (path : Aspath) (type : AslenSpec) (aslen : ℕ) : Bool :=
  match type with
  | .max => aslen < aspathCount path
  | .seq => (path.foldl (fun x seg =>
      seg.ases.foldl (aspathLenStep aslen (seg.type = .asSet)) x) (some (0, 0))).isNone

/-- `community_count`. The list is sorted by type. -/
def communityCount (comm : List Community) (type : ℕ) : ℕ := comm.countP fun c => c.type = type

/-- `struct filter_prefix` -/
structure FilterPrefix where
  addr : BgpdAddr
  op : FilterOp := .none
  len : ℕ
  lenMin : ℕ := 0
  lenMax : ℕ := 0
  deriving DecidableEq, Repr

/-- `rde_prefix_match` -/
def rdePrefixMatch (fp : FilterPrefix) (addr : BgpdAddr) (plen : ℕ) : Bool :=
  -- don't use IPv4 rules for IPv6 and vice versa
  if fp.addr.aid ≠ addr.aid then false
  else if prefixCompareEq addr fp.addr fp.len = false then false
  else
    match fp.op with
    | .none => plen = fp.len
    | .eq => plen = fp.lenMin
    | .ne => plen ≠ fp.lenMin
    | .range => fp.lenMin ≤ plen ∧ plen ≤ fp.lenMax
    | .xrange => plen < fp.lenMin ∨ fp.lenMax < plen

/-- `struct filter_nexthop` -/
inductive FilterNexthop where
  | addr (a : BgpdAddr)
  | neighbor
  deriving DecidableEq, Repr

/-- `struct filter_match`; what is not asked for is `none` or 0. `prefixset` is the set, if it
    is there, and `PREFIXSET_FLAG_LONGER`. -/
structure FilterMatch where
  prefix_ : Option FilterPrefix := none
  nexthop : Option FilterNexthop := none
  as : Option FilterAs := none
  aslen : Option (AslenSpec × ℕ) := none
  community : List Community := []
  prefixset : Option (Option TrieHead × Bool) := none
  originset : Option RoaHead := none
  ovs : Option ℕ := none
  avs : Option ℕ := none
  maxcomm : ℕ := 0
  maxextcomm : ℕ := 0
  maxlargecomm : ℕ := 0

/-- The address for the tries. -/
def inetAddr (addr : BgpdAddr) : Option InetAddr :=
  match addr.aid with
  | some .inet => some (.v4 (BitVec.ofNat _ addr.addr))
  | some .inet6 => some (.v6 (BitVec.ofNat _ addr.addr))
  | _ => none

/-- The nexthop test of `rde_filter_match`. Nexthops have IPv4 or IPv6 addresses. -/
def nexthopMatch (f : FilterNexthop) (from_ : FromPeer) (nexthop : BgpdAddr) : Bool :=
  let cmpaddr := match f with
    | .addr a => a
    | .neighbor => from_.remoteAddr
  -- don't use IPv4 rules for IPv6 and vice versa
  cmpaddr.aid = nexthop.aid && cmpaddr.addr = nexthop.addr

/-- `rde_filter_match` -/
def rdeFilterMatch (localAs : ℕ) (m : FilterMatch) (peer : FilterPeer) (from_ : FromPeer)
    (state : FilterState) (addr : BgpdAddr) (plen : ℕ) : Bool :=
  let path := state.aspath.aspath
  let count := communityCount state.communities
  let peerAs : Communities.PeerAs := ⟨peer.remoteAs, peer.localAs⟩
  m.ovs.all (fun v => state.vstate % 4 = v) &&
  m.avs.all (fun v => state.vstate / 16 % 4 = v) &&
  m.as.all (fun f => aspathMatch localAs path f peer.remoteAs) &&
  m.aslen.all (fun f => aspathLenmatch path f.1 f.2) &&
  m.community.all (fun c => Communities.communityMatch state.communities c (some peerAs)) &&
  m.maxcomm ≤ count Community.typeBasic &&
  m.maxextcomm ≤ count Community.typeExt &&
  m.maxlargecomm ≤ count Community.typeLarge &&
  -- no nexthop, skip
  m.nexthop.all (fun f => state.nexthop.any (nexthopMatch f from_)) &&
  -- origin-set lookups match only on ROA_VALID
  m.originset.all (fun th => (inetAddr addr).any fun a =>
    trieRoaCheck th a plen (RpkiReload.aspathOrigin localAs path) = .valid) &&
  -- prefixset and prefix filter rules are mutual exclusive
  match m.prefixset with
  | some (ps, longer) => ps.any fun th => (inetAddr addr).any fun a => trieMatch th a plen longer
  | none => m.prefix_.all fun fp => rdePrefixMatch fp addr plen

/-! ## Rules -/

/-- `enum filter_action` -/
inductive FilterAction where
  | none | allow | deny
  deriving DecidableEq, Repr

/-- `struct filter_peers` -/
structure FilterPeers where
  peerid : ℕ := 0
  groupid : ℕ := 0
  remoteAs : ℕ := 0
  ebgp : Bool := false
  ibgp : Bool := false
  deriving DecidableEq, Repr

variable {σ : Type}

/-- `struct filter_rule`, and without `peer` also `struct rde_filter_rule`. -/
structure FilterRule (σ : Type) where
  peer : FilterPeers := {}
  match_ : FilterMatch := {}
  rdeSet : σ
  action : FilterAction := .none
  quick : Bool := false

/-- `RDE_FILTER_SKIP_PEERID`, `RDE_FILTER_SKIP_GROUPID` and `RDE_FILTER_SKIP_REMOTE_AS` -/
inductive SkipField where
  | peerid | groupid | remoteAs
  deriving DecidableEq, Repr

def FilterPeers.field (p : FilterPeers) : SkipField → ℕ
  | .peerid => p.peerid
  | .groupid => p.groupid
  | .remoteAs => p.remoteAs

/-- The `skip` arrays of all rules. -/
abbrev SkipSteps := ℕ → SkipField → ℕ

/-- `RDE_FILTER_SET_SKIP_STEPS`: the rules from `head` on, `n` of them, up to `cur`. -/
def setSkipSteps (i : SkipField) (cur : ℕ) : ℕ → ℕ → SkipSteps → SkipSteps
  | 0, _, skip => skip
  | n + 1, head, skip =>
    setSkipSteps i cur n (head + 1) fun j i' => if j = head ∧ i' = i then cur else skip j i'

/-- The variables of `rde_filter_calc_skip_steps`. -/
structure SkipState where
  skip : SkipSteps
  head : SkipField → ℕ

/-- Set the steps of the rules from the head to `cur`, which is the new head. -/
def SkipState.set (s : SkipState) (i : SkipField) (cur : ℕ) : SkipState where
  skip := setSkipSteps i cur (cur - s.head i) (s.head i) s.skip
  head := Function.update s.head i cur

/-- All three fields, in the order of the source. -/
def SkipState.setAll (s : SkipState) (changed : SkipField → Bool) (cur : ℕ) : SkipState :=
  let s := if changed .peerid then s.set .peerid cur else s
  let s := if changed .groupid then s.set .groupid cur else s
  if changed .remoteAs then s.set .remoteAs cur else s

/-- The loop of `rde_filter_calc_skip_steps` over the rules from `cur` on. -/
def calcSkipLoop (prev : FilterPeers) : List (FilterRule σ) → ℕ → SkipState → SkipState
  | [], cur, s => s.setAll (fun _ => true) cur
  | f :: rest, cur, s =>
    calcSkipLoop f.peer rest (cur + 1) (s.setAll (fun i => f.peer.field i ≠ prev.field i) cur)

/-- `rde_filter_calc_skip_steps` -/
def rdeFilterCalcSkipSteps (rules : List (FilterRule σ)) : SkipSteps :=
  match rules with
  | [] => fun _ _ => 0
  | f :: _ => (calcSkipLoop f.peer rules 0 ⟨fun _ _ => 0, fun _ => 0⟩).skip

/-- What `rde_filter` and `rde_filter_out` are called with, and `rde_apply_set`. -/
structure FilterArgs (σ : Type) where
  rdeApplySet : σ → FilterPeer → FromPeer → FilterState → Option Aid → FilterState
  localAs : ℕ
  peer : FilterPeer
  from_ : FromPeer
  addr : BgpdAddr
  plen : ℕ

variable (c : FilterArgs σ)

/-- The body of the loops for a rule that is for the peer: `true` is `return`. -/
def FilterArgs.applyRule (f : FilterRule σ) (action : FilterAction) (state : FilterState) :
    Bool × FilterAction × FilterState :=
  if rdeFilterMatch c.localAs f.match_ c.peer c.from_ state c.addr c.plen then
    (f.quick, if f.action = .none then action else f.action,
      c.rdeApplySet f.rdeSet c.peer c.from_ state c.addr.aid)
  else (false, action, state)

/-- The loop of `rde_filter` from the rule at `f` on. `none` is a loop that does not end. -/
def rdeFilterLoop (rules : List (FilterRule σ)) (skip : SkipSteps) :
    ℕ → ℕ → FilterAction → FilterState → Option (FilterAction × FilterState)
  | 0, _, _, _ => none
  | n + 1, i, action, state =>
    match rules[i]? with
    | none => some (action, state)
    | some f =>
      if f.peer.peerid ≠ 0 ∧ f.peer.peerid ≠ c.peer.id then
        rdeFilterLoop rules skip n (skip i .peerid) action state
      else if f.peer.groupid ≠ 0 ∧ f.peer.groupid ≠ c.peer.groupid then
        rdeFilterLoop rules skip n (skip i .groupid) action state
      else if f.peer.remoteAs ≠ 0 ∧ f.peer.remoteAs ≠ c.peer.remoteAs then
        rdeFilterLoop rules skip n (skip i .remoteAs) action state
      else if f.peer.ebgp ∧ ¬c.peer.ebgp then rdeFilterLoop rules skip n (i + 1) action state
      else if f.peer.ibgp ∧ c.peer.ebgp then rdeFilterLoop rules skip n (i + 1) action state
      else
        let (quick, action, state) := c.applyRule f action state
        if quick then some (action, state)
        else rdeFilterLoop rules skip n (i + 1) action state

/-- The flowspec families. -/
def isFlowspec (addr : BgpdAddr) : Bool := addr.aid.any Aid.isFlowspec

/-- `rde_filter`; no rules are `NULL`. A round for each rule and one for the end are enough. -/
def rdeFilter (rules : Option (List (FilterRule σ))) (state : FilterState) :
    Option (FilterAction × FilterState) :=
  -- don't try to filter bad updates just deny them
  if state.aspath.flags.parseErr then some (.deny, state)
  else
    match rules with
    | none => some (.deny, state)
    | some rules =>
      if isFlowspec c.addr then some (.allow, state)
      else rdeFilterLoop c rules (rdeFilterCalcSkipSteps rules) (rules.length + 1) 0 .deny state

/-! ## Compiled rules -/

/-- `rde_filter_skip_rule`: true when the rule can never match for this peer. -/
def rdeFilterSkipRule (peer : FilterPeer) (f : FilterRule σ) : Bool :=
  (f.peer.peerid ≠ 0 ∧ f.peer.peerid ≠ peer.id) ||
  (f.peer.groupid ≠ 0 ∧ f.peer.groupid ≠ peer.groupid) ||
  (f.peer.remoteAs ≠ 0 ∧ f.peer.remoteAs ≠ peer.remoteAs) ||
  (f.peer.ebgp && f.peer.ebgp != peer.ebgp) ||
  (f.peer.ibgp && f.peer.ibgp != !peer.ebgp)

/-- `peer_apply_out_filter`: the rules that are put together with `rde_filter_fill`. The cache
    has another copy of them at most. -/
def peerApplyOutFilter (peer : FilterPeer) (rules : List (FilterRule σ)) : List (FilterRule σ) :=
  (rules.filter fun f => !rdeFilterSkipRule peer f).map fun f => { f with peer := {} }

/-- The loop of `rde_filter_out`. -/
def rdeFilterOutLoop : List (FilterRule σ) → FilterAction → FilterState → FilterAction × FilterState
  | [], action, state => (action, state)
  | f :: rest, action, state =>
    let (quick, action, state) := c.applyRule f action state
    if quick then (action, state) else rdeFilterOutLoop rest action state

/-- `rde_filter_out` -/
def rdeFilterOut (rf : List (FilterRule σ)) (state : FilterState) : FilterAction × FilterState :=
  if state.aspath.flags.parseErr then (.deny, state)
  else if isFlowspec c.addr then (.allow, state)
  else rdeFilterOutLoop c rf .deny state

end Bgpd.Rde.Filter
