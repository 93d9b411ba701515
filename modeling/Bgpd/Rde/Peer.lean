import Bgpd.Rde.Rib

/-!
# Peers, Sessions and Dumps

Model of `rde_peer.c`, of the dump contexts of `rde_rib.c` and `rde_adjout.c`, and of the
runner that sends UPDATE messages. The state changes by events: the RDE handles a message,
or one of its runners does one round.

A walk of a tree pauses after some elements. Where exactly it does so depends on locks and on
empty elements, so that the number of elements of a round is part of the event; the source
uses `RDE_RUNNER_ROUNDS`. In the same way the number of prefixes that fit a message is part of
the event that sends it.

## Layout

- `peerGenerateUpdate`, `peerProcessUpdates`: from a RIB entry to the Adj-RIB-Outs
- `ribDumpR`: one round of a dump
- `peerUp`, `peerDown`, `peerStale`: session events
- `upDumpWithdraws`, `upDumpUpdate`: sending
- `Event`, `step`: the system
-/

namespace Bgpd.Rde

variable (cfg : RdeConfig)

/-! ## Update generation -/

/-- What the generators change for a peer and a destination. -/
def RdeState.out (s : RdeState) (q : PeerId) (pt : PtEntry) : Out where
  adjout := s.adjout pt
  pend := (s.peers q).pend pt.aid
  state := (s.peers q).state
  prefixOutCnt := (s.peers q).prefixOutCnt

def RdeState.setAdjout (s : RdeState) (pt : PtEntry) (arr : List AdjoutPrefix) : RdeState :=
  { s with adjout := fun k => if k = pt then arr else s.adjout k }

/-- Put back what the generators changed. -/
def RdeState.setOut (s : RdeState) (q : PeerId) (pt : PtEntry) (out : Out) : RdeState :=
  (s.setAdjout pt out.adjout).setPeer q { s.peers q with
    pend := fun a => if a = pt.aid then out.pend else (s.peers q).pend a
    state := out.state
    prefixOutCnt := out.prefixOutCnt }

/-- The queued paths of an entry, with the objects their addresses stand for. -/
def RibEntry.queued (re : RibEntry) : List (ℕ × Option Prefix) :=
  re.pq.map fun e => (e.1, e.2.bind fun q => re.prefixH.find? fun p => p.ptr = q)

/-- Does the peer get updates from the RIB for this address family? -/
def RdePeer.hasGenerator (peer : RdePeer) (rib : ℕ) (aid : Aid) : Bool :=
  -- skip ourself, and peers that never had a session open
  peer.conf.id ≠ peerself && peer.state ≠ .none &&
  -- skip peers using a different rib, and address families that are not supported
  peer.locRibId = rib && peer.capa.mp aid &&
  -- skip peers with special export types
  !(peer.exportType = .none || peer.exportType = .defaultRoute)

/-- The generator of a peer. -/
def upGenerate (env : UpEnv) (peer : OutParams) (pt : PtEntry) (chain : List Prefix)
    (pq : List (ℕ × Option Prefix)) (mode : EvalMode) (out : Out) : Except Fatal Out :=
  -- handle peers with add-path
  if peer.capa.addPathSend pt.aid then
    if peer.eval.mode = .all then upGenerateAddpathAll env peer pt chain pq mode out
    else upGenerateAddpath env peer pt chain mode out
  -- skip regular peers if the best path didn't change
  else if mode = .all ∧ !peer.flags.evaluateAll then .ok out
  else upGenerateUpdates env peer pt chain mode out

/-- `peer_generate_update` -/
def RdeState.peerGenerateUpdate (s : RdeState) (rib : ℕ) (pt : PtEntry) (mode : EvalMode)
    (q : PeerId) : Except Fatal RdeState :=
  let re := s.entry rib pt
  if (s.peers q).hasGenerator rib pt.aid then
    (upGenerate (s.upEnv cfg) (s.peers q).toOutParams pt
      (prefixChain (cfg.ribFlags rib) re.prefixH) re.queued mode (s.out q pt)).map (s.setOut q pt)
  else .ok s

/-- `adjout_prefix_collect` -/
def RdeState.collect (s : RdeState) (pt : PtEntry) : RdeState :=
  s.setAdjout pt (adjoutPrefixCollect (s.adjout pt))

/-- The loop over the peers in `peer_process_updates`. -/
def RdeState.generateAll (s : RdeState) (rib : ℕ) (pt : PtEntry) (mode : EvalMode) :
    List PeerId → Except Fatal RdeState
  | [] => .ok s
  | q :: rest => do
    let s ← s.peerGenerateUpdate cfg rib pt mode q
    s.generateAll rib pt mode rest

/-- `rib_pq_dequeue` -/
def RdeState.ribPqDequeue (s : RdeState) (rib : ℕ) (pt : PtEntry) : RdeState :=
  s.setEntry rib pt { s.entry rib pt with pq := [], pqMode := none }

/-- `peer_process_updates`: the first queued entry of a peer. -/
def RdeState.peerProcessUpdates (s : RdeState) (q : PeerId) : Except Fatal RdeState :=
  match (s.peers q).ribPq with
  | [] => .ok s
  | (rib, pt) :: rest =>
    let s := s.setPeer q { s.peers q with ribPq := rest }
    match (s.entry rib pt).pqMode with
    -- a queued entry has a mode
    | none => .ok s
    | some mode => do
      let s ← s.generateAll cfg rib pt mode cfg.peertable
      .ok ((s.collect pt).ribPqDequeue rib pt)

/-! ## Dumps -/

/-- `peer_blast_done` and `peer_dump_done`: unthrottle the peer and inject the EOR. -/
def RdeState.dumpDone (s : RdeState) (q : PeerId) (aid : Aid) : RdeState :=
  let peer := s.peers q
  s.setPeer q { peer with
    throttled := false
    pend := fun a => if a = aid ∧ peer.capa.grRestart then pendEorAdd (peer.pend a)
      else peer.pend a }

/-- `peer_dump_upcall` -/
def RdeState.dumpUpcall (s : RdeState) (q : PeerId) (rib : ℕ) (pt : PtEntry) :
    Except Fatal RdeState :=
  match prefixBest (cfg.ribFlags rib) (s.entry rib pt).prefixH with
  -- no eligible prefix, not even for 'evaluate all'
  | none => .ok s
  | some _ => do
    let s ← s.peerGenerateUpdate cfg rib pt .sync q
    .ok (s.collect pt)

/-- `peer_blast_upcall` for the entries of the peer for one destination. -/
def RdeState.blastUpcall (s : RdeState) (q : PeerId) (pt : PtEntry) : RdeState :=
  let pend := (adjoutPrefixes q (s.adjout pt)).foldl
    (fun pend e => pendPrefixAdd e.2.attrs pt e.2.pathIdTx pend) ((s.peers q).pend pt.aid)
  (s.setPeer q { s.peers q with
    pend := fun a => if a = pt.aid then pend else (s.peers q).pend a }).collect pt

/-- What a walk does with one element of the tree. -/
def RdeState.dumpCall (s : RdeState) (ctx : RibContext) (pt : PtEntry) : Except Fatal RdeState :=
  match ctx.kind with
  | .dump => s.dumpUpcall cfg ctx.peer ctx.ribId pt
  | .blast => .ok (s.blastUpcall ctx.peer pt)

/-- Elements that a walk passes over: those of other address families, and empty RIB entries. -/
def RdeState.dumpSkips (s : RdeState) (ctx : RibContext) (pt : PtEntry) : Bool :=
  pt.aid ≠ ctx.aid || (ctx.kind = .dump && (s.entry ctx.ribId pt).prefixH = [])

/-- Visit up to `n` elements. The result is the element at which the walk pauses, if it does. -/
def RdeState.dumpWalk (ctx : RibContext) :
    ℕ → List PtEntry → RdeState → Except Fatal (Option PtEntry × RdeState)
  | _, [], s => .ok (none, s)
  | n, k :: rest, s =>
    if s.dumpSkips ctx k then RdeState.dumpWalk ctx n rest s
    else
      match n with
      | 0 => .ok (some k, s)
      | n + 1 => do
        let s ← s.dumpCall cfg ctx k
        RdeState.dumpWalk ctx n rest s

/-- The elements from the one on at which the walk paused. -/
def RdeState.dumpRest (s : RdeState) (pos : Option PtEntry) : List PtEntry :=
  match pos with
  | none => s.keys
  | some k => s.keys.filter (ptLe k)

/-- `rib_dump_r` or `adjout_prefix_dump_r` for the `i`-th context. -/
def RdeState.ribDumpR (s : RdeState) (i n : ℕ) : Except Fatal RdeState :=
  match s.dumps[i]? with
  | none => .ok s
  | some ctx => do
    let (pos, s) ← RdeState.dumpWalk cfg ctx n (s.dumpRest ctx.pos) s
    match pos with
    | some k => .ok { s with dumps := s.dumps.set i { ctx with pos := some k } }
    | none => .ok ({ s with dumps := s.dumps.eraseIdx i }.dumpDone ctx.peer ctx.aid)

/-- `rib_dump_terminate`: the completion callback is called too. -/
def RdeState.ribDumpTerminate (s : RdeState) (q : PeerId) : RdeState :=
  let s' := (s.dumps.filter (·.peer = q)).foldl (fun s ctx => s.dumpDone ctx.peer ctx.aid) s
  { s' with dumps := s.dumps.filter (·.peer ≠ q) }

/-! ## Sessions -/

/-- `struct session_up` -/
structure SessionUp where
  remoteAddr : BgpdAddr := {}
  localV4Addr : BgpdAddr := {}
  localV6Addr : BgpdAddr := {}
  remoteBgpid : ℕ := 0
  capa : Capabilities := {}
  deriving DecidableEq

/-- `adjout_peer_flush_pending` -/
def RdeState.flushPending (s : RdeState) (q : PeerId) : RdeState :=
  s.setPeer q { s.peers q with pend := fun _ => {} }

/-- Stop all pending dumps which may depend on the peer, and flush all pending updates. -/
def RdeState.stopOutput (s : RdeState) (q : PeerId) : RdeState :=
  (s.ribDumpTerminate q).flushPending q

/-- The start of `peer_down`. -/
def RdeState.setDown (s : RdeState) (q : PeerId) : RdeState :=
  s.setPeer q { s.peers q with remoteBgpid := 0, state := .down }

/-- `peer_down` -/
def RdeState.peerDown (s : RdeState) (q : PeerId) : RdeState :=
  ((s.setDown q).stopOutput q).peerFlush cfg q none none

/-- Flush the now even staler routes out. -/
def RdeState.flushStaler (s : RdeState) (q : PeerId) (aid : Aid) : RdeState :=
  match (s.peers q).staletime aid with
  | some t => s.peerFlush cfg q (some aid) (some t)
  | none => s

/-- Mark the routes of the peer as stale. -/
def RdeState.setStale (s : RdeState) (q : PeerId) (aid : Aid) (now : ℕ) : RdeState :=
  s.setPeer q { s.peers q with
    staletime := fun a => if a = aid then some now else (s.peers q).staletime a
    state := .down }

/-- `peer_stale` -/
def RdeState.peerStale (s : RdeState) (q : PeerId) (aid : Aid) (flushall : Bool) (now : ℕ) :
    RdeState :=
  let s := ((s.flushStaler cfg q aid).setStale q aid now).stopOutput q
  if flushall then s.peerFlush cfg q (some aid) none else s

/-- The synchronous walk of `prefix_flowspec_dump`. -/
def RdeState.flowspecDump (s : RdeState) (q : PeerId) : List PtEntry → Except Fatal RdeState
  | [] => .ok s
  | k :: rest => do
    let s ← s.dumpUpcall cfg q ribLocStart k
    s.flowspecDump q rest

/-- `up_generate_default` for an address family. -/
def RdeState.dumpDefault (s : RdeState) (q : PeerId) (aid : Aid) : Except Fatal RdeState :=
  (upGenerateDefault (s.upEnv cfg) (s.peers q).toOutParams aid (s.out q (defaultPt aid))).map
    fun out => (s.addKey (defaultPt aid)).setOut q (defaultPt aid) out

/-- Throttle the peer until its dump is done. -/
def RdeState.throttle (s : RdeState) (q : PeerId) : RdeState :=
  s.setPeer q { s.peers q with throttled := true }

/-- `peer_dump` -/
def RdeState.peerDump (s : RdeState) (q : PeerId) (aid : Aid) : Except Fatal RdeState :=
  let s := s.throttle q
  match (s.peers q).exportType with
  | .none => .ok (s.dumpDone q aid)
  | .defaultRoute => (s.dumpDefault cfg q aid).map fun s => s.dumpDone q aid
  | .unset =>
    if aid.isFlowspec then
      (s.flowspecDump cfg q (s.keys.filter (·.aid = aid))).map fun s => s.dumpDone q aid
    else .ok { s with dumps := ⟨.dump, q, (s.peers q).locRibId, aid, none⟩ :: s.dumps }

/-- `peer_blast` -/
def RdeState.peerBlast (s : RdeState) (q : PeerId) (aid : Aid) : RdeState :=
  { s with dumps := ⟨.blast, q, 0, aid, none⟩ :: s.dumps }

/-- The loops over the negotiated address families at the end of `peer_up`. -/
def RdeState.startDumps (s : RdeState) (q : PeerId) (forceSync : Bool) :
    List Aid → Except Fatal RdeState
  | [] => .ok s
  | aid :: rest =>
    if !(s.peers q).capa.mp aid then s.startDumps q forceSync rest
    else if forceSync then do
      let s ← s.peerDump cfg q aid
      s.startDumps q forceSync rest
    else (s.peerBlast q aid).startDumps q forceSync rest

/-- Did no value change during the flap that the Adj-RIB-Out depends on? -/
def RdePeer.inSync (peer : RdePeer) (sup : SessionUp) : Bool :=
  peer.remoteAddr = sup.remoteAddr ∧ peer.localV4Addr = sup.localV4Addr ∧
    peer.localV6Addr = sup.localV6Addr ∧ peer.capa = sup.capa

/-- The peer with the values of the new session. -/
def RdePeer.withSession (peer : RdePeer) (sup : SessionUp) : RdePeer :=
  { peer with
    remoteAddr := sup.remoteAddr
    localV4Addr := sup.localV4Addr
    localV6Addr := sup.localV6Addr
    capa := sup.capa
    remoteBgpid := sup.remoteBgpid
    state := .up
    sent := [] }

/-- `peer_up` and what the handler of `IMSG_SESSION_UP` does after it. -/
def RdeState.peerUp (s : RdeState) (q : PeerId) (sup : SessionUp) : Except Fatal RdeState := do
  -- there is a race condition when doing PEER_ERR -> PEER_DOWN
  let s := if (s.peers q).state = .err then s.peerDown cfg q else s
  let forceSync := !(s.peers q).inSync sup
  let s ← (s.setPeer q ((s.peers q).withSession sup)).startDumps cfg q forceSync Aid.all
  -- make sure rde_eval_all is on if needed
  .ok { s with evalAll := s.evalAll || Aid.all.any sup.capa.addPathSend }

/-! ## Sending -/

/-- May the update runner send to the peer? -/
def RdePeer.sends (peer : RdePeer) : Bool := peer.state = .up && !peer.throttled

/-- The peer after a message for one address family. -/
def RdeState.sendMsg (s : RdeState) (q : PeerId) (aid : Aid) (pend : PendQueue)
    (msg : List UpdateMsg) : RdeState :=
  s.setPeer q { s.peers q with
    pend := fun a => if a = aid then pend else (s.peers q).pend a
    sent := (s.peers q).sent ++ msg }

/-- `up_dump_withdraws`: the first pending withdraws, as many as fit. -/
def RdeState.upDumpWithdraws (s : RdeState) (q : PeerId) (aid : Aid) (n : ℕ) : RdeState :=
  let pend := (s.peers q).pend aid
  if (s.peers q).sends ∧ pend.withdraws ≠ [] then
    s.sendMsg q aid { pend with withdraws := pend.withdraws.drop n }
      [{ withdrawn := pend.withdraws.take n }]
  else s

/-- `up_is_eor` and `up_dump_update`: the End-of-RIB marker, or the first prefixes of the first
    group of updates, as many as fit. -/
def RdeState.upDumpUpdate (s : RdeState) (q : PeerId) (aid : Aid) (n : ℕ) : RdeState :=
  let pend := (s.peers q).pend aid
  if (s.peers q).sends then
    match pend.updates with
    | [] => s
    | pa :: rest =>
      if pa.attrs.isNone then s.sendMsg q aid { pend with updates := rest } []
      else
        let left := pa.prefixes.drop n
        s.sendMsg q aid
          { pend with
            updates := if left = [] then rest else { pa with prefixes := left } :: rest }
          [{ attrs := pa.attrs, nlri := pa.prefixes.take n }]
  else s

/-! ## The system -/

/-- What may happen to the RDE. -/
inductive Event where
  | update (a : PathArgs)
  | withdraw (rib : ℕ) (peer : PeerId) (pathId : ℕ) (pt : PtEntry)
  | flush (peer : PeerId) (aid : Option Aid) (staletime : Option ℕ)
  | nexthop (rib : ℕ) (pt : PtEntry) (p : Ptr) (state oldstate : NexthopState)
  | process (q : PeerId)
  | dump (i n : ℕ)
  | up (q : PeerId) (sup : SessionUp)
  | down (q : PeerId)
  | stale (q : PeerId) (aid : Aid) (flushall : Bool) (now : ℕ)
  | sendWithdraws (q : PeerId) (aid : Aid) (n : ℕ)
  | sendUpdate (q : PeerId) (aid : Aid) (n : ℕ)

/-- One step of the RDE; an error is a call of `fatalx`. -/
def RdeState.step (s : RdeState) : Event → Except Fatal RdeState
  | .update a => s.prefixUpdate cfg a
  | .withdraw rib peer pathId pt => .ok (s.prefixWithdraw cfg rib peer pathId pt)
  | .flush peer aid staletime => .ok (s.peerFlush cfg peer aid staletime)
  | .nexthop rib pt p state oldstate => .ok (s.evaluateNexthop cfg rib pt p state oldstate)
  | .process q => s.peerProcessUpdates cfg q
  | .dump i n => s.ribDumpR cfg i n
  | .up q sup => s.peerUp cfg q sup
  | .down q => .ok (s.peerDown cfg q)
  | .stale q aid flushall now => .ok (s.peerStale cfg q aid flushall now)
  | .sendWithdraws q aid n => .ok (s.upDumpWithdraws q aid n)
  | .sendUpdate q aid n => .ok (s.upDumpUpdate q aid n)

/-- The step function for runs: the program ends at a `fatalx`. -/
def rdeStep (s : RdeState) (e : Event) : Option RdeState := (s.step cfg e).toOption

end Bgpd.Rde
