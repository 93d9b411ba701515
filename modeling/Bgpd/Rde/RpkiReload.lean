import Bgpd.Lib.Walk
import Bgpd.Rde.Rib
import Bgpd.Rpki.Tables

/-!
# Validation of the Adj-RIB-In

Model of the part of `rde.c` that keeps the validation states of the Adj-RIB-In: paths are
validated when they arrive, and the RTR engine sends new tables from time to time, after which
a walk over the Adj-RIB-In validates all paths again. While such a walk is under way new
tables are dropped.

The result of the ASPA validation is kept in the AS path objects together with the generation
of the table, a number of 8 bits. These objects are shared: by paths of the Adj-RIB-In with the
same attributes, and with the Loc-RIBs and Adj-RIB-Outs. Objects that other parts of the RDE
link and unlink are events here. Communities and nexthops of a path do not matter here.

## Layout

- `rdeRoaValidity`, `rdeAspaValidity`: validation
- `rdeUpdateUpdate`, `rdeUpdateWithdraw`, `peerFlush`: paths come and go
- `rdeRpkiSoftreload`: the visit of a destination
- `rdeRoaReload`, `rdeAspaReload`, `rdeRpkiReload`: new tables
-/

namespace Bgpd.Rde.RpkiReload

open Bgpd.Lib Bgpd.Rpki

/-! ## State -/

/-- What is read of a peer. -/
structure InPeer where
  ebgp : Bool
  role : Role
  deriving DecidableEq, Repr

/-- The configuration. `peerself` is a peer without `ebgp`. -/
structure RpkiEnv where
  localAs : ℕ
  peer : PeerId → InPeer

/-- `struct prefix` in the Adj-RIB-In. The last fields are the two halves of
    `validation_state`. -/
structure InPrefix where
  peer : PeerId
  pathId : ℕ
  aspath : RdeAspath
  roaVstate : RoaState
  aspaVstate : AspaVstate
  deriving DecidableEq, Repr

/-- The fields `aspa_state` and `aspa_generation` of an AS path object. -/
structure AspaCache where
  state : RdeAspaState := {}
  generation : ℕ := 0
  deriving DecidableEq, Repr

/-- An AS path object is found by its attributes in the path table. -/
abbrev PathTable := RdeAspath → Option AspaCache

/-- The tables, the path table, the Adj-RIB-In and the walk over it. `keys` are the
    destinations in their order, a superset of those with paths. -/
structure RdeRpki where
  roa : RoaHead := {}
  aspa : Option AspaTable := none
  /-- `rde_aspa_generation`, of 8 bits -/
  generation : ℕ := 0
  paths : PathTable := fun _ => none
  keys : List PtEntry := []
  adjIn : PtEntry → List InPrefix := fun _ => []
  /-- `rpki_update_pending` -/
  pending : Bool := false
  dump : Cursor PtEntry := .idle

/-! ## Validation -/

/-- `aspath_origin`: the last AS of a path that ends with a sequence. -/
def aspathOrigin (localAs : ℕ) (path : Aspath) : ℕ :=
  match path.getLast? with
  | none => localAs
  | some seg => if seg.type = .asSequence then seg.ases.getLastD 0 else asNone

/-- `rde_roa_validity` -/
def rdeRoaValidity (roa : RoaHead) (pt : PtEntry) (as : ℕ) : RoaState :=
  match pt.aid with
  | .inet => trieRoaCheck roa (.v4 (BitVec.ofNat _ pt.data)) pt.prefixlen as
  | .inet6 => trieRoaCheck roa (.v6 (BitVec.ofNat _ pt.data)) pt.prefixlen as
  | _ => .notfound

/-- `rde_aspa_validity` -/
def rdeAspaValidity (peer : InPeer) (state : RdeAspaState) (aid : Aid) : AspaVstate :=
  -- ASPA is only performed on ebgp sessions
  if peer.ebgp = false then .neverKnown
  -- skip uncovered aids
  else if aid ≠ .inet ∧ aid ≠ .inet6 then .neverKnown
  -- if no role is set, the outcome is unknown
  else if peer.role = .none then .unknown
  else if peer.role = .customer then state.downup
  else state.onlyup

namespace RdeRpki

variable (env : RpkiEnv) (s : RdeRpki)

/-- `aspa_validation` with the table in use. -/
def aspaValidation (path : Aspath) : RdeAspaState :=
  Rpki.aspaValidation (s.aspa.map (·.ra)) path

/-! ## Paths -/

/-- `path_getcache`: an object for the path is linked if there is none. -/
def pathGetcache (asp : RdeAspath) (cache : AspaCache) : RdeRpki :=
  if (s.paths asp).isSome then s
  else { s with paths := Function.update s.paths asp (some cache) }

def samePath (peer : PeerId) (pathId : ℕ) (p : InPrefix) : Bool := p.peer = peer ∧ p.pathId = pathId

/-- `rde_update_update` and `network_add` for the Adj-RIB-In. The result of the ASPA validation
    is cached for all updates from ebgp sessions. -/
def rdeUpdateUpdate (peer : PeerId) (pathId : ℕ) (pt : PtEntry) (asp : RdeAspath) : RdeRpki :=
  let cache := if (env.peer peer).ebgp then ⟨s.aspaValidation asp.aspath, s.generation⟩ else {}
  let p : InPrefix :=
    { peer := peer, pathId := pathId, aspath := asp
      roaVstate := rdeRoaValidity s.roa pt (aspathOrigin env.localAs asp.aspath)
      aspaVstate := rdeAspaValidity (env.peer peer) cache.state pt.aid }
  let s := s.pathGetcache asp cache
  let l := p :: (s.adjIn pt).filter fun q => !samePath peer pathId q
  { s with
    keys := if pt ∈ s.keys then s.keys else insertKey pt s.keys
    adjIn := Function.update s.adjIn pt l }

/-- `rde_update_withdraw` for the Adj-RIB-In. -/
def rdeUpdateWithdraw (peer : PeerId) (pathId : ℕ) (pt : PtEntry) : RdeRpki :=
  let l := (s.adjIn pt).filter fun q => !samePath peer pathId q
  { s with adjIn := Function.update s.adjIn pt l }

/-- `peer_flush`: the paths of a peer that are old enough are removed. -/
def peerFlush (peer : PeerId) (old : PtEntry → ℕ → Bool) : RdeRpki :=
  { s with adjIn := fun pt =>
      (s.adjIn pt).filter fun q => !decide (q.peer = peer ∧ old pt q.pathId = true) }

/-- `path_unlink` of an object that nothing refers to. -/
def pathUnlink (asp : RdeAspath) : Option RdeRpki :=
  if s.keys.any fun pt => (s.adjIn pt).any fun p => p.aspath = asp then none
  else some { s with paths := Function.update s.paths asp none }

/-! ## The walk -/

/-- The ASPA part of one round of the loop in `rde_rpki_softreload`. -/
def softreloadAspa (pt : PtEntry) (p : InPrefix) (paths : PathTable) :
    Option (AspaVstate × PathTable) :=
  if p.aspaVstate = .neverKnown then some (.neverKnown, paths)
  else (paths p.aspath).map fun cache =>
    let cache :=
      if cache.generation ≠ s.generation then ⟨s.aspaValidation p.aspath.aspath, s.generation⟩
      else cache
    (rdeAspaValidity (env.peer p.peer) cache.state pt.aid,
      Function.update paths p.aspath (some cache))

/-- The loop of `rde_rpki_softreload` over the paths of a destination. -/
def softreloadPrefixes (pt : PtEntry) :
    List InPrefix → PathTable → Option (List InPrefix × PathTable)
  | [], paths => some ([], paths)
  | p :: rest, paths => do
    let (aspaVstate, paths) ← softreloadAspa env s pt p paths
    let roaVstate := rdeRoaValidity s.roa pt (aspathOrigin env.localAs p.aspath.aspath)
    let (rest, paths) ← softreloadPrefixes pt rest paths
    some ({ p with roaVstate := roaVstate, aspaVstate := aspaVstate } :: rest, paths)

/-- `rde_rpki_softreload` -/
def rdeRpkiSoftreload (pt : PtEntry) (s : RdeRpki) : Option RdeRpki :=
  (softreloadPrefixes env s pt (s.adjIn pt) s.paths).map fun x =>
    { s with adjIn := Function.update s.adjIn pt x.1, paths := x.2 }

/-- `rib_dump_r` for the walk: a round of up to `n` destinations. At the end of the walk
    `rde_rpki_softreload_done` is called. -/
def ribDumpR (n : ℕ) : Option RdeRpki :=
  if s.dump = .idle then none
  else (walkKeys (fun s pt => s.adjIn pt = []) (rdeRpkiSoftreload env) n
      (s.keys.filter (s.dump.ahead ptLe)) s).map fun (dump, s) =>
    { s with dump := dump, pending := if dump = .idle then false else s.pending }

/-! ## New tables -/

/-- `rde_roa_reload` -/
def rdeRoaReload (roaNew : RoaHead) : Bool × RdeRpki :=
  -- can't use new roa table, force call to rde_rpki_reload
  if s.pending then (true, s)
  -- check if roa changed
  else (!trieEqual roaNew s.roa, { s with roa := roaNew })

/-- `rde_aspa_reload` -/
def rdeAspaReload (aspaNew : Option AspaTable) : Bool × RdeRpki :=
  -- can't use new aspa table, rde_rpki_reload warns
  if s.pending then (true, s)
  -- check if aspa changed
  else if aspaTableEqual aspaNew s.aspa then (false, { s with aspa := aspaNew })
  else (true, { s with aspa := aspaNew, generation := (s.generation + 1) % 2 ^ 8 })

/-- `rde_rpki_reload` -/
def rdeRpkiReload : RdeRpki :=
  -- "RPKI softreload skipped, old still running"
  if s.pending then s
  else { s with pending := true, dump := .start }

end RdeRpki

/-- A complete transfer. The RTR engine sends the ASPA sets in descending order. -/
structure RtrTransfer where
  roas : List AnyRoa := []
  aspas : List (ℕ × List ℕ) := []
  sorted : aspas.Pairwise fun a b => b.1 < a.1 := by decide

/-- The end of a transfer in `rde_dispatch_imsg_rtr`. The messages before it only fill the new
    tables, which nothing reads until then. -/
def RdeRpki.reconfDone (s : RdeRpki) (t : RtrTransfer) : Option RdeRpki :=
  (aspaTransfer t.aspas).toOption.map fun aspaNew =>
    let (roaChanged, s) := s.rdeRoaReload (roaTable t.roas)
    let (aspaChanged, s) := s.rdeAspaReload aspaNew
    if roaChanged || aspaChanged then s.rdeRpkiReload else s

/-! ## Events -/

inductive RpkiEvent where
  | update (peer : PeerId) (pathId : ℕ) (pt : PtEntry) (asp : RdeAspath)
  | withdraw (peer : PeerId) (pathId : ℕ) (pt : PtEntry)
  | flush (peer : PeerId) (old : PtEntry → ℕ → Bool)
  | pathLink (asp : RdeAspath) (cache : AspaCache)
  | pathUnlink (asp : RdeAspath)
  | transfer (t : RtrTransfer)
  | dumpR (n : ℕ)

/-- One event. -/
def rpkiStep (env : RpkiEnv) (s : RdeRpki) : RpkiEvent → Option RdeRpki
  | .update peer pathId pt asp => some (s.rdeUpdateUpdate env peer pathId pt asp)
  | .withdraw peer pathId pt => some (s.rdeUpdateWithdraw peer pathId pt)
  | .flush peer old => some (s.peerFlush peer old)
  | .pathLink asp cache => some (s.pathGetcache asp cache)
  | .pathUnlink asp => s.pathUnlink asp
  | .transfer t => s.reconfDone t
  | .dumpR n => s.ribDumpR env n

end Bgpd.Rde.RpkiReload
