import Bgpd.Rde.Adjout
import Bgpd.Rde.Decide

/-!
# Update Generation

Model of `rde_update.c`: which paths of a RIB entry are advertised to a peer and with which
attributes, and the three generators that bring the Adj-RIB-Out of the peer in line.

The output filter (`rde_filter_out`) is a parameter: a function of the interned rule set, the
two peers involved, the destination and the filter state. So is what the RDE knows about a
nexthop address.

## Layout

- `OutParams`: what the generators read of a peer
- `upDecide`: the filter stages of `up_process_prefix`
- `upGenerateUpdates`, `upGenerateAddpath`, `upGenerateAddpathAll`, `upGenerateDefault`
-/

namespace Bgpd.Rde

/-! ## Peers -/

/-- `enum export_type` -/
inductive ExportType where
  | unset | none | defaultRoute
  deriving DecidableEq, Repr

/-- `enum role`: the local role in an open policy session. -/
inductive Role where
  | none | customer | provider | rs | rsClient | peer
  deriving DecidableEq, Repr

/-- `enum addpath_mode` -/
inductive AddpathMode where
  | none | best | ecmp | asWide | all
  deriving DecidableEq, Repr

theorem maxpaths_zero (mode : AddpathMode) : mode = .all → (0 : ℕ) = 0 := fun _ => rfl

/-- `struct addpath_eval` -/
structure AddpathEval where
  mode : AddpathMode := .none
  extrapaths : ℕ := 0
  maxpaths : ℕ := 0
  /-- The grammar of the configuration has no `max` option for `add-path send all`. -/
  allMax : mode = .all → maxpaths = 0 := by first | exact maxpaths_zero _ | decide
  deriving DecidableEq, Repr

/-- The bits of `peer.flags` that the RDE tests. -/
structure PeerFlags where
  /-- `PEERFLAG_EVALUATE_ALL` -/
  evaluateAll : Bool := false
  /-- `PEERFLAG_TRANS_AS` -/
  transAs : Bool := false
  deriving DecidableEq, Repr

/-- `struct peer_config`. The last fields are copied into the peer on a reload. -/
structure PeerConf where
  id : PeerId
  groupid : ℕ := 0
  remoteAs : ℕ := 0
  localAs : ℕ := 0
  ebgp : Bool := true
  reflectorClient : Bool := false
  distance : ℕ := 1
  maxOutPrefix : ℕ := 0
  exportType : ExportType := .unset
  flags : PeerFlags := {}
  role : Role := .none
  eval : AddpathEval := {}
  rib : ℕ := 1
  deriving DecidableEq, Repr

/-- `struct capabilities`; `others` stands for the fields that are only compared. -/
structure Capabilities where
  mp : Aid → Bool := fun _ => false
  addPathSend : Aid → Bool := fun _ => false
  extNh : Aid → Bool := fun _ => false
  grRestart : Bool := false
  others : ℕ := 0
  deriving DecidableEq

/-- What the generators read of a peer. -/
structure OutParams where
  conf : PeerConf
  remoteAddr : BgpdAddr := {}
  localV4Addr : BgpdAddr := {}
  localV6Addr : BgpdAddr := {}
  capa : Capabilities := {}
  eval : AddpathEval := {}
  /-- Number of the interned rule set. -/
  outRules : ℕ := 0
  exportType : ExportType := .unset
  role : Role := .none
  flags : PeerFlags := {}
  locRibId : ℕ := 1
  deriving DecidableEq

/-! ## Filter stages -/

/-- `struct filterstate` -/
structure FilterState where
  aspath : RdeAspath := {}
  communities : List Community := []
  nexthop : Option BgpdAddr := none
  nhflags : NhFlags := {}
  vstate : ℕ := 0
  deriving DecidableEq, Repr

/-- What is known about a nexthop: `NEXTHOP_CONNECTED` and the network it is in. -/
structure NexthopInfo where
  connected : Bool := false
  net : BgpdAddr := {}
  netlen : ℕ := 0
  deriving DecidableEq, Repr

/-- What the filter rules read of a peer. -/
structure FilterPeer where
  id : PeerId
  groupid : ℕ
  remoteAs : ℕ
  localAs : ℕ
  ebgp : Bool
  deriving DecidableEq, Repr

def PeerConf.filterPeer (conf : PeerConf) : FilterPeer :=
  ⟨conf.id, conf.groupid, conf.remoteAs, conf.localAs, conf.ebgp⟩

/-- What is read of the peer a path came from. -/
structure FromPeer where
  conf : PeerConf
  remoteAddr : BgpdAddr := {}
  deriving DecidableEq, Repr

/-- The surroundings of update generation: the peers paths come from, the output filter and
    the nexthops. `filterOut rules peer from addr pt state` is `none` for `ACTION_DENY`. -/
structure UpEnv where
  from_ : PeerId → FromPeer
  filterOut : ℕ → FilterPeer → FromPeer → PtEntry → FilterState → Option FilterState
  nexthop : BgpdAddr → NexthopInfo

/-- `community_match` with one of the well-known communities. -/
def communityMatch (comm : List Community) (data2 : ℕ) : Bool :=
  comm.any fun x => x.flags = 8 ∧ x.data1 = 0xffff ∧ x.data2 = data2

/-- `COMMUNITY_NO_EXPORT` -/
def communityNoExport : ℕ := 0xff01

/-- `COMMUNITY_NO_ADVERTISE` -/
def communityNoAdvertise : ℕ := 0xff02

/-- `COMMUNITY_NO_EXPSUBCONFED` -/
def communityNoExpsubconfed : ℕ := 0xff03

/-- `up_test_update`: the rules that do not depend on the configured filters. -/
def upTestUpdate (env : UpEnv) (peer : OutParams) (p : Prefix) : Except Fatal Bool :=
  match p.aspath with
  | none => .error .badPath
  | some asp =>
    if asp.flags.parseErr ∨ asp.flags.loop ∨ asp.flags.otcLeak then .error .badPath
    -- do not send routes back to sender
    else if peer.conf.id = p.peer then .ok false
    -- route reflector redistribution rules
    else if !(env.from_ p.peer).conf.ebgp && !peer.conf.ebgp &&
        !(env.from_ p.peer).conf.reflectorClient && !peer.conf.reflectorClient &&
        !asp.flags.announced then .ok false
    else if peer.flags.transAs then .ok true
    -- well-known communities
    else if communityMatch p.communities communityNoAdvertise then .ok false
    else if peer.conf.ebgp && (communityMatch p.communities communityNoExport ||
        communityMatch p.communities communityNoExpsubconfed) then .ok false
    else .ok true

/-- `attr_optadd` into the sorted list; an attribute is allowed only once. -/
def attrOptadd (new : Attr) : List Attr → List Attr
  | [] => [new]
  | a :: rest =>
    if new.type = a.type then a :: rest
    else if new.type < a.type then new :: a :: rest
    else a :: attrOptadd new rest

/-- A number in network byte order. -/
def toBe32 (n : ℕ) : List ℕ := [n / 2 ^ 24 % 256, n / 2 ^ 16 % 256, n / 2 ^ 8 % 256, n % 256]

/-- `up_enforce_open_policy` (RFC 9234): `none` means filtered. -/
def upEnforceOpenPolicy (peer : OutParams) (state : FilterState) (aid : Aid) :
    Option FilterState :=
  -- only for IPv4 and IPv6 unicast
  if aid ≠ .inet ∧ aid ≠ .inet6 then some state
  -- do not propagate if OTC is present and local role is peer, customer or rs-client
  else if (peer.role = .peer ∨ peer.role = .customer ∨ peer.role = .rsClient) ∧
      state.aspath.flags.otc then none
  -- add OTC if not present towards peers, customers and rs-clients
  else if (peer.role = .peer ∨ peer.role = .provider ∨ peer.role = .rs) ∧
      !state.aspath.flags.otc then
    some { state with aspath := { state.aspath with
      others := attrOptadd ⟨0xc0, attrOtc, toBe32 peer.conf.localAs⟩ state.aspath.others
      flags := { state.aspath.flags with otc := true } } }
  else some state

/-- `prefix_compare(..) == 0` for two addresses of peers and nexthops, which are IPv4 or
    IPv6 addresses. -/
def prefixCompareEq (a b : BgpdAddr) (len : ℕ) : Bool :=
  match a.aid with
  | some .inet => b.aid = a.aid ∧
      (len = 0 ∨ (len ≤ 32 ∧ a.addr / 2 ^ (32 - len) = b.addr / 2 ^ (32 - len)))
  | some .inet6 => b.aid = a.aid ∧
      (len = 0 ∨ (len ≤ 128 ∧ a.addr / 2 ^ (128 - len) = b.addr / 2 ^ (128 - len)))
  | _ => false

/-- The local address that fits the address family. -/
def upPeerLocal (peer : OutParams) : Aid → Option BgpdAddr
  | aid@.inet | aid@.vpn4 =>
    if peer.capa.extNh aid ∧ peer.remoteAddr.aid = some .inet6 then some peer.localV6Addr
    else if peer.localV4Addr.aid = some .inet then some peer.localV4Addr
    else none
  | .inet6 | .vpn6 =>
    if peer.localV6Addr.aid = some .inet6 then some peer.localV6Addr else none
  | .evpn =>
    if peer.localV4Addr.aid = some .inet then some peer.localV4Addr
    else if peer.localV6Addr.aid = some .inet6 then some peer.localV6Addr
    else none
  | .flowspec4 | .flowspec6 => none

/-- `up_get_nexthop` -/
def upGetNexthop (env : UpEnv) (peer : OutParams) (state : FilterState) (aid : Aid) :
    Option BgpdAddr :=
  let peerLocal := upPeerLocal peer aid
  -- flowspec has no nexthop
  if aid.isFlowspec then none
  -- forcing the nexthop to self is always possible
  else if state.nhflags.self then peerLocal
  else
    match state.nexthop with
    | none => peerLocal
    | some nh =>
      if !peer.conf.ebgp then
        -- ibgp: not modified unless it points at the peer itself
        if nh = peer.remoteAddr then peerLocal else some nh
      else if peer.conf.distance = 1 then
        -- ebgp directly connected: only if in the same net
        if (env.nexthop nh).connected &&
            prefixCompareEq peer.remoteAddr (env.nexthop nh).net (env.nexthop nh).netlen then
          some nh
        else peerLocal
      else
        -- ebgp multihop
        if state.nhflags.nomodify ∧ nh ≠ peer.remoteAddr then some nh else peerLocal

/-- `aspath_prepend` of one AS number. -/
def aspathPrepend (as : ℕ) (path : Aspath) : Aspath :=
  match path with
  | [] => [⟨.asSequence, [as]⟩]
  | s :: rest =>
    if s.type = .asSet ∨ 255 < s.ases.length + 1 then ⟨.asSequence, [as]⟩ :: s :: rest
    else ⟨.asSequence, as :: s.ases⟩ :: rest

/-- `up_prep_adjout`: the attributes as they are advertised. -/
def upPrepAdjout (env : UpEnv) (peer : OutParams) (state : FilterState) (aid : Aid) :
    AdjoutAttr where
  aspath :=
    -- prepend local AS number for eBGP sessions
    if peer.conf.ebgp ∧ !peer.flags.transAs then
      { state.aspath with aspath := aspathPrepend peer.conf.localAs state.aspath.aspath }
    else state.aspath
  communities := state.communities
  nexthop := upGetNexthop env peer state aid

/-- What the filter stages of `up_process_prefix` decide. -/
inductive UpDecision where
  | filtered
  | excluded
  | announce (attrs : AdjoutAttr)
  deriving DecidableEq, Repr

/-- `rde_filterstate_prep` -/
def filterstatePrep (p : Prefix) : FilterState where
  aspath := p.asp
  communities := p.communities
  nexthop := p.nexthop
  nhflags := p.nhflags
  vstate := p.validationState

/-- The first half of `up_process_prefix`, up to the attributes to be advertised. -/
def upDecide (env : UpEnv) (peer : OutParams) (new : Prefix) : Except Fatal UpDecision := do
  -- needs to run before the output filters because of the well-known communities
  let ok ← upTestUpdate env peer new
  match env.filterOut peer.outRules peer.conf.filterPeer (env.from_ new.peer) new.pt
      (filterstatePrep new) with
  | none => .ok .filtered
  | some state =>
    match upEnforceOpenPolicy peer state new.pt.aid with
    | none => .ok .filtered
    | some state =>
      if !ok then .ok .excluded
      else .ok (.announce (upPrepAdjout env peer state new.pt.aid))

/-! ## One path -/

/-- `enum up_state` -/
inductive UpState where
  | ok | errLimit | filtered | excluded
  deriving DecidableEq, Repr

/-- The outbound prefix limit; beyond it `rde_update_err` ends the session. -/
def upCheckLimit (peer : OutParams) (out : Out) : UpState × Out :=
  if peer.conf.maxOutPrefix ≠ 0 ∧ peer.conf.maxOutPrefix < out.prefixOutCnt then
    (.errLimit, { out with state := .err })
  else (.ok, out)

/-- `up_process_prefix`: `p` is the entry to update with path id 0, or `none` for the add-path
    case (`(void *)-1`), where the entry is looked up by the path id. -/
def upProcessPrefix (env : UpEnv) (peer : OutParams) (new : Prefix) (p : Option (Option ℕ))
    (mode : EvalMode) (out : Out) : Except Fatal (UpState × Out) := do
  match ← upDecide env peer new with
  | .filtered => .ok (.filtered, out)
  | .excluded => .ok (.excluded, out)
  | .announce attrs =>
    let out ← match p with
      | some p => adjoutPrefixUpdate p peer.conf.id attrs new.pt 0 (mode = .sync) out
      | none =>
        adjoutPrefixUpdate (adjoutPrefixGet peer.conf.id new.pathIdTx out.adjout) peer.conf.id
          attrs new.pt new.pathIdTx (mode = .sync) out
    .ok (upCheckLimit peer out)

/-! ## The generators -/

/-- The paths a generator goes through: from the best one on as long as they are eligible. -/
def prefixChain (flags : RibFlags) (h : List Prefix) : List Prefix :=
  if flags.noevaluate then [] else h.takeWhile prefixEligible

/-- Withdraw a list of entries. -/
def withdrawAll (peer : PeerId) (pt : PtEntry) (skipSend : Bool) :
    List ℕ → Out → Except Fatal Out
  | [], out => .ok out
  | i :: rest, out => do
    let out ← adjoutPrefixWithdraw peer pt i skipSend out
    withdrawAll peer pt skipSend rest out

/-- The loop of `up_generate_updates`; the flag says that the function returns. -/
def upUpdatesLoop (env : UpEnv) (peer : OutParams) (p : Option ℕ) (mode : EvalMode) :
    List Prefix → Out → Except Fatal (Bool × Out)
  | [], out => .ok (false, out)
  | new :: rest, out => do
    let (st, out) ← upProcessPrefix env peer new (some p) mode out
    match st with
    | .ok | .errLimit => .ok (true, out)
    | .filtered =>
      if peer.flags.evaluateAll then upUpdatesLoop env peer p mode rest out
      else .ok (false, out)
    | .excluded => .ok (false, out)

/-- Withdraw the entry the peer has, if there is one. -/
def withdrawEntry (peer : PeerId) (pt : PtEntry) (p : Option ℕ) (skipSend : Bool) (out : Out) :
    Except Fatal Out :=
  match p with
  | none => .ok out
  | some i => adjoutPrefixWithdraw peer pt i skipSend out

/-- The start of `up_generate_updates`: the entry to update. If the peer switched from add-path
    send to no add-path, then flush all the cached prefixes. -/
def upFlushCached (peer : PeerId) (pt : PtEntry) (mode : EvalMode) (out : Out) :
    Except Fatal (Option ℕ × Out) :=
  let cur := adjoutPrefixes peer out.adjout
  if mode = .sync ∧ cur.head?.any (fun e => e.2.pathIdTx ≠ 0) then
    (withdrawAll peer pt true (cur.map (·.1)) out).map fun out => (none, out)
  else .ok (cur.head?.map (·.1), out)

/-- `up_generate_updates` for the destination `pt` and the chain of its eligible paths. -/
def upGenerateUpdates (env : UpEnv) (peer : OutParams) (pt : PtEntry) (chain : List Prefix)
    (mode : EvalMode) (out : Out) : Except Fatal Out := do
  let (p, out) ← upFlushCached peer.conf.id pt mode out
  let (done, out) ← upUpdatesLoop env peer p mode chain out
  if done then .ok out
  -- withdraw prefix
  else withdrawEntry peer.conf.id pt p (mode = .sync) out

/-- The variables of `up_generate_addpath`: the path ids found at the start, where `0` also
    marks one that is done, and the counters. -/
structure AddpathScan where
  ids : List ℕ
  checkmode : Bool := true
  maxpaths : ℕ := 0
  extrapaths : ℕ := 0

/-- Is a path with this `dmetric` an extra one, and does the mode check go on? -/
def addpathExtra (mode : AddpathMode) (checkmode : Bool) (dmetric : ℤ) :
    Except Fatal (Bool × Bool) :=
  if !checkmode then .ok (true, false)
  else
    match mode with
    | .best => .ok (if dmetric = dmetricBest then (false, true) else (true, false))
    | .ecmp =>
      .ok (if dmetric = dmetricBest ∨ dmetric = dmetricEcmp then (false, true) else (true, false))
    | .asWide =>
      .ok (if dmetric = dmetricBest ∨ dmetric = dmetricEcmp ∨ dmetric = dmetricAsWide then
        (false, true) else (true, false))
    | .all => .ok (false, true)
    | .none => .error .evalMode

/-- Is a limit on the number of paths reached? -/
def addpathLimit (eval : AddpathEval) (extra : Bool) (st : AddpathScan) : Bool :=
  (eval.maxpaths ≠ 0 ∧ eval.maxpaths ≤ st.maxpaths) ∨ (extra ∧ eval.extrapaths ≤ st.extrapaths)

/-- Mark the first occurrence of a path id as done. -/
def markDone (id : ℕ) : List ℕ → List ℕ
  | [] => []
  | x :: rest => if x = id then 0 :: rest else x :: markDone id rest

/-- Count a path that was announced and mark its path id. -/
def AddpathScan.done (st : AddpathScan) (extra : Bool) (id : ℕ) : AddpathScan :=
  { st with
    maxpaths := st.maxpaths + 1
    extrapaths := st.extrapaths + (if extra then 1 else 0)
    ids := markDone id st.ids }

/-- The loop of `up_generate_addpath`; the flag says that the function gives up. -/
def upAddpathLoop (env : UpEnv) (peer : OutParams) (mode : EvalMode) :
    List Prefix → AddpathScan → Out → Except Fatal (Bool × AddpathScan × Out)
  | [], st, out => .ok (false, st, out)
  | new :: rest, st, out => do
    let (extra, checkmode) ← addpathExtra peer.eval.mode st.checkmode new.dmetric
    let st := { st with checkmode := checkmode }
    if addpathLimit peer.eval extra st then .ok (false, st, out)
    else
      let (up, out) ← upProcessPrefix env peer new none mode out
      match up with
      | .ok => upAddpathLoop env peer mode rest (st.done extra new.pathIdTx) out
      | .filtered | .excluded => upAddpathLoop env peer mode rest st out
      | .errLimit => .ok (true, st, out)

/-- Withdraw the paths that were not seen again. -/
def withdrawStale (peer : PeerId) (pt : PtEntry) (skipSend : Bool) :
    List ℕ → Out → Except Fatal Out
  | [], out => .ok out
  | id :: rest, out =>
    if id = 0 then withdrawStale peer pt skipSend rest out
    else do
      let out ← withdrawEntry peer pt (adjoutPrefixGet peer id out.adjout) skipSend out
      withdrawStale peer pt skipSend rest out

/-- `nitems(addpath_prefix_list)` -/
def addpathPrefixListLen : ℕ := 2000

/-- `up_generate_addpath` -/
def upGenerateAddpath (env : UpEnv) (peer : OutParams) (pt : PtEntry) (chain : List Prefix)
    (mode : EvalMode) (out : Out) : Except Fatal Out := do
  -- collect all current paths
  let ids := (adjoutPrefixes peer.conf.id out.adjout).map (·.2.pathIdTx)
  if addpathPrefixListLen ≤ ids.length then .error .tooManyPaths
  else
    let (giveup, st, out) ← upAddpathLoop env peer mode chain { ids := ids } out
    if giveup then .ok out
    else withdrawStale peer.conf.id pt (mode = .sync) st.ids out

/-- What `up_generate_addpath_all` does with the path of a change. A path that is gone or not
    eligible any more counts as filtered. -/
def upProcessQueued (env : UpEnv) (peer : OutParams) (p : Option Prefix) (mode : EvalMode)
    (out : Out) : Except Fatal (UpState × Out) :=
  match p.filter prefixEligible with
  | some p => upProcessPrefix env peer p none mode out
  | none => .ok (.filtered, out)

/-- The loop of `up_generate_addpath_all` over the queued paths: the path id of the change and
    the path it is for, if there is one. -/
def upAddpathAllLoop (env : UpEnv) (peer : OutParams) (pt : PtEntry) (mode : EvalMode) :
    List (ℕ × Option Prefix) → Out → Except Fatal Out
  | [], out => .ok out
  | (pathIdTx, p) :: rest, out => do
    let (st, out) ← upProcessQueued env peer p mode out
    match st with
    | .ok => upAddpathAllLoop env peer pt mode rest out
    | .errLimit => .ok out
    | .filtered | .excluded =>
      -- prefix was withdrawn or got filtered, withdraw from adjout
      let out ← withdrawEntry peer.conf.id pt (adjoutPrefixGet peer.conf.id pathIdTx out.adjout)
        (mode = .sync) out
      upAddpathAllLoop env peer pt mode rest out

/-- `up_generate_addpath_all` -/
def upGenerateAddpathAll (env : UpEnv) (peer : OutParams) (pt : PtEntry) (chain : List Prefix)
    (pq : List (ℕ × Option Prefix)) (mode : EvalMode) (out : Out) : Except Fatal Out :=
  if mode = .sync ∨ mode = .reeval then upGenerateAddpath env peer pt chain mode out
  else upAddpathAllLoop env peer pt mode pq out

/-- The destination of the default route. -/
def defaultPt (aid : Aid) : PtEntry := ⟨aid, 0, 0⟩

/-- The filter stages of `up_generate_default`. The validation state is `ROA_NOTFOUND` with
    `ASPA_NEVER_KNOWN`. -/
def upDecideDefault (env : UpEnv) (peer : OutParams) (aid : Aid) : Option AdjoutAttr :=
  (env.filterOut peer.outRules peer.conf.filterPeer (env.from_ peerself) (defaultPt aid)
    { vstate := 0x80 }).map
    fun state => upPrepAdjout env peer state aid

/-- `up_generate_default`: announce a default route, always force the update out. `out` is for
    the destination `defaultPt aid`. -/
def upGenerateDefault (env : UpEnv) (peer : OutParams) (aid : Aid) (out : Out) :
    Except Fatal Out :=
  if !peer.capa.mp aid then .ok out
  else
    match upDecideDefault env peer aid with
    | none => .ok out
    | some attrs => do
      let out ← adjoutPrefixUpdate (adjoutPrefixFirst peer.conf.id out.adjout) peer.conf.id attrs
        (defaultPt aid) 0 true out
      .ok (upCheckLimit peer out).2

end Bgpd.Rde
