import Mathlib.Data.List.Sort
import Bgpd.Lib.Run
import Bgpd.Rde.Softreconfig

/-!
# The End of a Reload

Model of how the RDE finds out that a reload is over. `rde_reload_done` starts dumps: flushes of
Adj-RIB-Outs and a walk over the Adj-RIB-In. The last of them to end starts the dumps of the
outbound phase, and the last of those reports to the parent. A counter, `softreconfig`, tells how
many are left; it is changed by the functions that are called when a dump ends, and these are
called as well when a dump is cut off because a peer went down or a RIB is removed.

What dumps do to routes is left out. The results of comparing filters are arguments of the
reload, and the element at which a round of a dump pauses is part of the event. Destinations are
numbered in the order of the tree, so that a dump only moves on to larger numbers.

## Layout

- `ribDumpNew`, `ribDumpFree`, `ribDumpTerminate`, `ribDumpAbort`: contexts
- `rdeSoftreconfigInDone`, `rdeSoftreconfigOutDone`, ...: what happens when a dump ends
- `rdeReloadDone`: the start of a reload
- `reloadStep`: the events of the RDE
-/

namespace Bgpd.Rde.ReloadEnd

open Bgpd.Lib
open Bgpd.Rde.Softreconfig (ReconfAction)

/-! ## State -/

/-- `struct peer_config` -/
structure DumpConf where
  exportType : ExportType := .unset
  flags : PeerFlags := {}
  role : Role := .none
  eval : AddpathEval := {}
  rib : String := ""
  deriving DecidableEq

/-- `struct session_up`, as far as `peer_up` compares it. -/
structure SessionUp where
  remoteAddr : BgpdAddr := {}
  localV4Addr : BgpdAddr := {}
  localV6Addr : BgpdAddr := {}
  capa : Capabilities := {}
  deriving DecidableEq

/-- `struct rde_peer` -/
structure DumpPeer where
  id : PeerId := 0
  state : PeerState := .none
  conf : DumpConf := {}
  exportType : ExportType := .unset
  flags : PeerFlags := {}
  role : Role := .none
  eval : AddpathEval := {}
  locRibId : ℕ := 0
  session : SessionUp := {}
  reconfOut : Bool := false
  reconfRib : Bool := false

/-- `struct rib` -/
structure DumpRib where
  name : String
  rtableid : ℕ
  flags : RibFlags
  rtableidTmp : ℕ := 0
  flagsTmp : RibFlags := {}
  state : ReconfAction := .none
  fibstate : ReconfAction := .none

/-- `ctx_arg` -/
inductive CtxArg where
  | null
  | peer (q : Ptr)
  | rib (id : ℕ)
  | other (arg : ℕ)
  deriving DecidableEq

/-- What a dump is for. It determines the callbacks of its context. -/
inductive DumpUse where
  /-- `rde_up_flush_upcall` with `rde_softreconfig_in_done` -/
  | flush (q : Ptr)
  /-- `rde_softreconfig_in` with `rde_softreconfig_in_done` -/
  | softreconfigIn
  /-- `rde_softreconfig_sync_fib` with `rde_softreconfig_sync_done` -/
  | syncFib (rid : ℕ)
  /-- `rde_softreconfig_sync_reeval` with `rde_softreconfig_sync_done` -/
  | syncReeval (rid : ℕ)
  /-- `rde_softreconfig_out` with `rde_softreconfig_out_done` -/
  | softreconfigOut (rid : ℕ)
  /-- `peer_dump` -/
  | dump (q : Ptr) (aid : Aid)
  /-- `peer_blast` -/
  | blast (q : Ptr) (aid : Aid)
  /-- The reaper of `peer_delete` -/
  | reaper (q : Ptr)
  /-- Requests of `bgpctl`, MRT dumps, `rde_rpki_softreload` and `network_flush_upcall` -/
  | other (ribCall : Bool) (arg : CtxArg)
  deriving DecidableEq

namespace DumpUse

/-- `ctx_arg` -/
def arg : DumpUse → CtxArg
  | .flush q => .peer q
  | .softreconfigIn => .null
  | .syncFib rid => .rib rid
  | .syncReeval rid => .rib rid
  | .softreconfigOut rid => .rib rid
  | .dump q _ => .peer q
  | .blast q _ => .peer q
  | .reaper q => .peer q
  | .other _ arg => arg

/-- `ctx_rib_call` is set: the dump walks over a RIB and not over an Adj-RIB-Out. -/
def ribCall : DumpUse → Bool
  | .flush _ => false
  | .blast _ _ => false
  | .reaper _ => false
  | .other ribCall _ => ribCall
  | _ => true

/-- Dumps that end with `rde_softreconfig_in_done`. -/
def isIn : DumpUse → Bool
  | .flush _ => true
  | .softreconfigIn => true
  | _ => false

/-- Dumps that end with `rde_softreconfig_sync_done` or `rde_softreconfig_out_done`. -/
def isOut : DumpUse → Bool
  | .syncFib _ => true
  | .syncReeval _ => true
  | .softreconfigOut _ => true
  | _ => false

/-- Dumps that `softreconfig` accounts for. -/
def counted (use : DumpUse) : Bool := use.isIn || use.isOut

end DumpUse

/-- `struct rib_context`. `pos` is the number of the element that the dump paused at, 0 before
    the first round; `outbound` tells that `rde_softreconfig_in_done` started the dump. -/
structure DumpCtx where
  addr : Ptr
  id : ℕ
  use : DumpUse
  pos : ℕ := 0
  outbound : Bool := false
  deriving DecidableEq

/-- The RDE. `exited` stands for `fatalx` and for the use of a null pointer. The last fields count
    the calls of `rde_reload_done`, the starts of the outbound phase, the messages
    `IMSG_RECONF_DONE` and the rounds of counted dumps. -/
structure ReloadState where
  softreconfig : ℤ := 0
  ribs : ℕ → Option DumpRib
  ribSize : ℕ
  peers : Ptr → DumpPeer
  peertable : List Ptr
  ribDumps : List DumpCtx := []
  nextAddr : Ptr := 0
  filteredInLocrib : Bool := false
  nconf : Bool := false
  exited : Bool := false
  reloads : ℕ := 0
  outStarts : ℕ := 0
  reconfDone : ℕ := 0
  rounds : ℕ := 0

namespace ReloadState

variable (s : ReloadState)

def setPeer (q : Ptr) (peer : DumpPeer) : ReloadState :=
  { s with peers := fun p => if p = q then peer else s.peers p }

def setRib (id : ℕ) (rib : Option DumpRib) : ReloadState :=
  { s with ribs := fun i => if i = id then rib else s.ribs i }

/-- `peer_get` -/
def peerGet (id : PeerId) : Option Ptr := s.peertable.find? fun q => (s.peers q).id = id

/-- `rib_find`. No name is the first Loc-RIB. -/
def ribFind (name : String) : Option ℕ :=
  if name = "" then some 1
  else (List.range s.ribSize).find? fun id => (s.ribs id).any fun rib => rib.name = name

/-! ## Contexts -/

/-- `rib_dump_new` and `adjout_prefix_dump_new` -/
def ribDumpNew (id : ℕ) (use : DumpUse) (outbound : Bool) : ReloadState :=
  { s with
    ribDumps := { addr := s.nextAddr, id := id, use := use, outbound := outbound } :: s.ribDumps
    nextAddr := s.nextAddr + 1 }

/-- `peer_dump`. The default route, and flowspec rules, are dumped at once. -/
def peerDump (q : Ptr) (aid : Aid) (outbound : Bool) : ReloadState :=
  match (s.peers q).exportType with
  | .none => s
  | .defaultRoute => s
  | .unset =>
    if aid = .flowspec4 ∨ aid = .flowspec6 then s
    else s.ribDumpNew (s.peers q).locRibId (.dump q aid) outbound

/-- `peer_blast` -/
def peerBlast (q : Ptr) (aid : Aid) : ReloadState := s.ribDumpNew 0 (.blast q aid) false

/-! ## The end of a dump -/

/-- `rde_softreconfig_done` -/
def rdeSoftreconfigDone : ReloadState :=
  { s with
    ribs := fun id => (s.ribs id).map fun rib => { rib with state := .none }
    reconfDone := s.reconfDone + 1 }

/-- The first loop of `rde_softreconfig_in_done`: RIBs that need their FIB or all decisions
    again. -/
def startSync (id : ℕ) : ReloadState :=
  match s.ribs id with
  | none => s
  | some rib =>
    let s := s.setRib id (some { rib with state := .none })
    match rib.fibstate with
    | .reload => { s.ribDumpNew id (.syncFib id) true with softreconfig := s.softreconfig + 1 }
    | .reinit => { s.ribDumpNew id (.syncReeval id) true with softreconfig := s.softreconfig + 1 }
    | _ => s

/-- The second loop: peers that need their Adj-RIB-Out again. -/
def startPeer (q : Ptr) : ReloadState :=
  let peer := s.peers q
  if peer.reconfRib then
    (Aid.all.filter fun aid => peer.session.capa.mp aid).foldl
      (fun s aid => s.peerDump q aid true) s
  else if peer.reconfOut then
    match peer.exportType with
    | .none => s.setPeer q { peer with reconfOut := false }
    | .defaultRoute => s.setPeer q { peer with reconfOut := false }
    | .unset =>
      match s.ribs peer.locRibId with
      | none => { s with exited := true }
      | some rib => s.setRib peer.locRibId (some { rib with state := .reload })
  else s

/-- The third loop: RIBs that are sent again. -/
def startOut (id : ℕ) : ReloadState :=
  match s.ribs id with
  | none => s
  | some rib =>
    if rib.state = .reload then
      { s.ribDumpNew id (.softreconfigOut id) true with softreconfig := s.softreconfig + 1 }
    else s

/-- The loops of `rde_softreconfig_in_done`. -/
def startOutbound : ReloadState :=
  let s := (List.range s.ribSize).foldl startSync s
  let s := s.peertable.foldl startPeer s
  (List.range s.ribSize).foldl startOut s

/-- `rde_softreconfig_in_done` -/
def rdeSoftreconfigInDone : ReloadState :=
  let s := { s with softreconfig := s.softreconfig - 1 }
  -- one guy done but other dumps are still running
  if s.softreconfig > 0 then s
  else
    let s := startOutbound { s with softreconfig := 0, outStarts := s.outStarts + 1 }
    -- if nothing to do move to last stage
    if s.softreconfig = 0 then s.rdeSoftreconfigDone else s

/-- `rde_softreconfig_out_done` -/
def rdeSoftreconfigOutDone : ReloadState :=
  let s := { s with softreconfig := s.softreconfig - 1 }
  if s.softreconfig = 0 then s.rdeSoftreconfigDone else s

/-- `rde_softreconfig_sync_done` -/
def rdeSoftreconfigSyncDone (rid : ℕ) : ReloadState :=
  let s := s.setRib rid ((s.ribs rid).map fun rib => { rib with fibstate := .none })
  s.rdeSoftreconfigOutDone

/-- `ctx_done`. The other dumps have no part in a reload. -/
def ctxDone (c : DumpCtx) : ReloadState :=
  match c.use with
  | .flush _ => s.rdeSoftreconfigInDone
  | .softreconfigIn => s.rdeSoftreconfigInDone
  | .syncFib rid => s.rdeSoftreconfigSyncDone rid
  | .syncReeval rid => s.rdeSoftreconfigSyncDone rid
  | .softreconfigOut _ => s.rdeSoftreconfigOutDone
  | _ => s

/-- `rib_dump_free`, and the end of `rib_dump_r` and of `adjout_prefix_dump_r`. -/
def ribDumpFree (c : DumpCtx) : ReloadState :=
  let s := s.ctxDone c
  { s with ribDumps := s.ribDumps.filter fun x => x.addr ≠ c.addr }

/-- `rib_dump_terminate`. A callback only puts contexts in front of those that are looked at. -/
def ribDumpTerminate (arg : CtxArg) : ReloadState :=
  s.ribDumps.foldl (fun s c => if c.use.arg = arg then s.ribDumpFree c else s) s

/-- `rib_dump_abort`: `ctx_re` is set when a dump of a RIB has paused. -/
def ribDumpAbort (id : ℕ) : ReloadState :=
  s.ribDumps.foldl
    (fun s c => if c.id = id ∧ c.use.ribCall = true ∧ 0 < c.pos then s.ribDumpFree c else s) s

/-! ## Sessions -/

/-- `peer_add`; `q` is the object that `calloc` returns, if it comes to that. -/
def peerAdd (q : Ptr) (id : PeerId) (conf : DumpConf) : ReloadState :=
  match s.peerGet id with
  | some old => s.setPeer old { s.peers old with conf := conf }
  | none =>
    match s.ribFind conf.rib with
    | none => { s with exited := true }
    | some rid =>
      let s := s.setPeer q { id := id, conf := conf, exportType := conf.exportType
                             flags := conf.flags, role := conf.role, eval := conf.eval
                             locRibId := rid }
      { s with
        peertable := s.peertable.orderedInsert (fun a b => (s.peers a).id ≤ (s.peers b).id) q }

/-- `peer_down` and `peer_stale` -/
def peerDown (q : Ptr) : ReloadState :=
  let s := s.setPeer q { s.peers q with state := .down }
  s.ribDumpTerminate (.peer q)

/-- `peer_up` -/
def peerUp (q : Ptr) (sup : SessionUp) : ReloadState :=
  let s := if (s.peers q).state = .err then s.peerDown q else s
  let forceSync := (s.peers q).session ≠ sup
  let s := s.setPeer q { s.peers q with session := sup, state := .up }
  (Aid.all.filter fun aid => sup.capa.mp aid).foldl
    (fun s aid => if forceSync then s.peerDump q aid false else s.peerBlast q aid) s

/-- `peer_delete` -/
def peerDelete (q : Ptr) : ReloadState :=
  let s := if (s.peers q).state ≠ .down then s.peerDown q else s
  let s := { s with peertable := s.peertable.erase q }
  s.ribDumpNew 0 (.reaper q) false

/-! ## Reloads -/

/-- `IMSG_RECONF_CONF` -/
def reconfConf : ReloadState :=
  { s with
    nconf := true
    ribs := fun id => (s.ribs id).map fun rib => { rib with state := .delete, fibstate := .none } }

/-- `rib_new`: the first id that is free, in an array that grows. -/
def ribNew (name : String) (rtableid : ℕ) (flags : RibFlags) : ReloadState :=
  let id := ((List.range s.ribSize).find? fun id => (s.ribs id).isNone).getD s.ribSize
  let s := if id ≥ s.ribSize then { s with ribSize := id + 8 } else s
  s.setRib id (some { name := name, rtableid := rtableid, flags := flags, state := .reinit })

/-- `IMSG_RECONF_RIB` -/
def reconfRib (name : String) (rtableid : ℕ) (flags : RibFlags) : ReloadState :=
  match (s.ribFind name).bind fun id => (s.ribs id).map fun rib => (id, rib) with
  | none => s.ribNew name rtableid flags
  | some (id, rib) =>
    if rib.flags = flags ∧ rib.rtableid = rtableid then
      s.setRib id (some { rib with state := .keep })
    else
      s.setRib id (some { rib with flagsTmp := flags, rtableidTmp := rtableid, state := .reload })

/-- `rib_update`: the RIB, and if all decisions have to be made again. -/
def ribUpdate (rib : DumpRib) : DumpRib × Bool :=
  let fibstate := if rib.flags.noevaluate ≠ rib.flagsTmp.noevaluate then .reinit else rib.fibstate
  let rib := { rib with flags := rib.flagsTmp, rtableid := rib.rtableidTmp, fibstate := fibstate }
  let fibstate := if fibstate ≠ .reinit ∧ rib.flags.nofib = false ∧ rib.flags.noevaluate = false
    then .reload else fibstate
  ({ rib with fibstate := fibstate }, decide (fibstate = .reinit))

/-- `rib_free`. The default RIBs are never removed. -/
def ribFree (id : ℕ) : ReloadState :=
  let s := s.ribDumpAbort id
  if id ≤ 1 then s else s.setRib id none

end ReloadState

/-- What the new configuration brings: the filter mode, and the results of comparisons. -/
structure NewConf where
  filteredInLocrib : Bool
  /-- The peer exceeds a limit on its prefixes. -/
  overLimit : Ptr → Bool
  /-- `peer_apply_out_filter` gives the peer other rules. -/
  outFilter : Ptr → Bool
  /-- `rde_filter_equal` of the old and the new rules of a RIB -/
  filterEqual : ℕ → Bool

namespace ReloadState

variable (nconf : NewConf) (s : ReloadState)

/-- A flush of the Adj-RIB-Out is started and accounted for. -/
def startFlush (q : Ptr) : ReloadState :=
  { s.ribDumpNew 0 (.flush q) false with softreconfig := s.softreconfig + 1 }

/-- The loop of `rde_reload_done` over the peers. The number is `reload`. -/
def reloadPeer (a : ReloadState × ℕ) (q : Ptr) : ReloadState × ℕ :=
  let s := a.1
  let peer := s.peers q
  if peer.id = 0 then a
  else
    let conf := peer.conf
    -- rde_update_err
    let state := if nconf.overLimit q then .err else peer.state
    match s.ribFind conf.rib with
    | none => ({ s with exited := true }, a.2)
    | some rid =>
      let reconfRib := decide (peer.exportType ≠ conf.exportType) ||
        decide (peer.flags.evaluateAll ≠ conf.flags.evaluateAll) ||
        decide (peer.flags.transAs ≠ conf.flags.transAs) || decide (peer.locRibId ≠ rid)
      let newEval := (Aid.all.any fun aid => peer.session.capa.addPathSend aid) &&
        decide (conf.eval.mode ≠ .none) && decide (peer.eval ≠ conf.eval)
      let reload := if peer.role ≠ conf.role then a.2 + 1 else a.2
      let s := s.setPeer q { peer with
        state := state
        exportType := conf.exportType
        flags := conf.flags
        role := conf.role
        eval := if newEval then conf.eval else peer.eval
        locRibId := rid
        reconfRib := reconfRib
        reconfOut := newEval || nconf.outFilter q }
      (if reconfRib then s.startFlush q else s, reload)

/-- The peers whose Adj-RIB-Out depends on a RIB that is evaluated again. -/
def reinitPeer (rid : ℕ) (s : ReloadState) (q : Ptr) : ReloadState :=
  if (s.peers q).id = 0 then s
  else if (s.peers q).locRibId ≠ rid then s
  -- peer rib is already being flushed
  else if (s.peers q).reconfRib then s
  else s.startFlush q

/-- `RECONF_KEEP` -/
def keepRib (force : Bool) (rid : ℕ) (rib : DumpRib) (a : ReloadState × ℕ) : ReloadState × ℕ :=
  -- rib is in sync
  if ¬(force = true ∧ rid = 1) ∧ nconf.filterEqual rid = true then
    (a.1.setRib rid (some { rib with state := .keep }), a.2)
  else (a.1.setRib rid (some { rib with state := .reload }), a.2 + 1)

/-- The loop of `rde_reload_done` over the RIBs. -/
def reloadRib (force : Bool) (a : ReloadState × ℕ) (rid : ℕ) : ReloadState × ℕ :=
  match a.1.ribs rid with
  | none => a
  | some rib =>
    match rib.state with
    | .delete => (a.1.ribFree rid, a.2)
    | .reload =>
      let (rib, reinit) := ribUpdate rib
      let s := if reinit then a.1.peertable.foldl (reinitPeer rid) a.1 else a.1
      keepRib nconf force rid rib (s, a.2)
    | .keep => keepRib nconf force rid rib a
    | .reinit => (a.1.setRib rid (some { rib with state := .reload }), a.2 + 1)
    | .none => a

/-- The loops of `rde_reload_done`. -/
def reloadLoops (force : Bool) : ReloadState × ℕ :=
  let a := s.peertable.foldl (reloadPeer nconf) (s, 0)
  ((List.range a.1.ribSize).drop 1).foldl (reloadRib nconf force) a

/-- `rde_reload_done` -/
def rdeReloadDone : ReloadState :=
  let a := reloadLoops nconf
    { s with
      softreconfig := 0, filteredInLocrib := nconf.filteredInLocrib, nconf := false
      reloads := s.reloads + 1 }
    (decide (s.filteredInLocrib ≠ nconf.filteredInLocrib))
  let s := { a.1 with softreconfig := a.1.softreconfig + 1 }
  if a.2 > 0 then s.ribDumpNew 0 .softreconfigIn false else s.rdeSoftreconfigInDone

end ReloadState

/-! ## Steps -/

/-- What happens in the RDE. `round addr pause` is a call of `rib_dump_r` or of
    `adjout_prefix_dump_r`. -/
inductive ReloadEvent where
  | sessionAdd (q : Ptr) (id : PeerId) (conf : DumpConf)
  | sessionUp (id : PeerId) (sup : SessionUp)
  | sessionDown (id : PeerId)
  | sessionStale (id : PeerId)
  | sessionDelete (id : PeerId)
  | refresh (id : PeerId) (aid : Aid)
  | updateErr (id : PeerId)
  /-- `rde_rpki_reload`, `IMSG_NETWORK_FLUSH`, requests of `bgpctl` and MRT dumps. A dump of a
      subtree starts with a paused context. -/
  | dumpNew (id : ℕ) (ribCall : Bool) (arg : Option ℕ) (pos : ℕ)
  | dumpTerminate (arg : ℕ)
  | reconfConf
  | reconfRib (name : String) (rtableid : ℕ) (flags : RibFlags)
  | reconfDone (nconf : NewConf)
  | round (addr : Ptr) (pause : Option ℕ)

/-- A dump pauses at another element. -/
def pauseAt (addr : Ptr) (k : ℕ) (x : DumpCtx) : DumpCtx :=
  if x.addr = addr then { x with pos := k } else x

/-- `rib_dump_r` and `adjout_prefix_dump_r` store the element. -/
def ReloadState.pause (s : ReloadState) (addr : Ptr) (k : ℕ) : ReloadState :=
  { s with ribDumps := s.ribDumps.map (pauseAt addr k) }

/-- A round of a dump. It fails when its RIB is gone; otherwise the dump pauses at an element
    that comes later, or ends. There are at most `keys` elements. -/
def dumpRound (keys : ℕ) (s : ReloadState) (addr : Ptr) (pause : Option ℕ) : Option ReloadState :=
  match s.ribDumps.find? fun c => c.addr = addr with
  | none => none
  | some c =>
    if c.use.ribCall = true ∧ (s.ribs c.id).isNone then some { s with exited := true }
    else
      let s := { s with rounds := s.rounds + if c.use.counted then 1 else 0 }
      match pause with
      | none => some (s.ribDumpFree c)
      | some k =>
        if c.pos < k ∧ k ≤ keys then some (s.pause addr k) else none

/-- A dump that has no part in a reload. -/
def ReloadState.otherDump (s : ReloadState) (id : ℕ) (ribCall : Bool) (arg : Option ℕ) (pos : ℕ) :
    ReloadState :=
  let use := DumpUse.other ribCall ((arg.map CtxArg.other).getD .null)
  { s with
    ribDumps := { addr := s.nextAddr, id := id, use := use, pos := pos } :: s.ribDumps
    nextAddr := s.nextAddr + 1 }

/-- What happens to a peer, if there is one. -/
def onPeer (s : ReloadState) (id : PeerId) (f : Ptr → ReloadState) : ReloadState :=
  match s.peerGet id with
  | some q => f q
  | none => s

/-- What an event does. The parent sends a new configuration only after the last reload is
    over. -/
def reloadHandle (keys : ℕ) (s : ReloadState) : ReloadEvent → Option ReloadState
  | .sessionAdd q id conf => if q ∈ s.peertable then none else some (s.peerAdd q id conf)
  | .sessionUp id sup => some (onPeer s id fun q => s.peerUp q sup)
  | .sessionDown id => some (onPeer s id fun q => s.peerDown q)
  | .sessionStale id => some (onPeer s id fun q => s.peerDown q)
  | .sessionDelete id => some (onPeer s id fun q => s.peerDelete q)
  | .refresh id aid => some (onPeer s id fun q => s.peerBlast q aid)
  | .updateErr id => some (onPeer s id fun q => s.setPeer q { s.peers q with state := .err })
  | .dumpNew id ribCall arg pos => some (s.otherDump id ribCall arg pos)
  | .dumpTerminate arg => some (s.ribDumpTerminate (.other arg))
  | .reconfConf => if s.nconf ∨ s.reconfDone ≠ s.reloads then none else some s.reconfConf
  | .reconfRib name rtableid flags =>
    if s.nconf then some (s.reconfRib name rtableid flags) else none
  | .reconfDone nconf => if s.nconf then some (s.rdeReloadDone nconf) else none
  | .round addr pause => dumpRound keys s addr pause

/-- A step of the RDE, as long as it runs. -/
def reloadStep (keys : ℕ) (s : ReloadState) (e : ReloadEvent) : Option ReloadState :=
  if s.exited then none else reloadHandle keys s e

/-- The RDE before the first configuration, with the Adj-RIB-In and `peerself`. -/
def reloadInit (self : Ptr) : ReloadState where
  ribs := fun id => if id = 0 then some { name := "Adj-RIB-In", rtableid := 0
                                          flags := { noevaluate := true, nofib := true }
                                          state := .reinit }
    else none
  ribSize := 8
  peers := fun _ => { id := peerself, state := .up, locRibId := 1 }
  peertable := [self]

end Bgpd.Rde.ReloadEnd
