import Bgpd.Lib.Walk
import Bgpd.Rde.Rib

/-!
# From the Adj-RIB-In to the Loc-RIBs

Model of the part of `rde.c` that fills the Loc-RIBs. A path of a neighbor is kept in the
Adj-RIB-In as it was received, and for every RIB the input filter decides about it. This
happens in three places: when the path arrives, when a walk over the Adj-RIB-In after a change
of the configuration reaches it, and when a walk after a change of the RPKI tables has changed
its validation state.

The paths of a RIB are a map, since `prefix_get` finds them by destination, peer and path id.
The rules of a RIB stand for the list of rules together with the contents of the sets that they
use: `rde_filter_equal` compares the rules and finds out with the flag `dirty` if the contents
changed. `rde_filter` can be any function of what it gets. The validation states that a walk
computes are arguments of its rounds, and so is the number of destinations of a round.

## Layout

- `filterEntry`: the decision about a path
- `rdeUpdateUpdate`, `rdeUpdateWithdraw`, `peerFlush`, `networkAdd`: paths come and go
- `rdeRpkiSoftreload`, `rdeSoftreconfigIn`: the visit of a destination
- `reconfConf`, `reconfRib`, `rdeReloadDone`: the configuration changes
-/

namespace Bgpd.Rde.Softreconfig

open Bgpd.Lib

/-! ## State -/

/-- `enum reconf_action` -/
inductive ReconfAction where
  | none | keep | reload | reinit | delete
  deriving DecidableEq, Repr

/-- What `prefix_get` looks for in a RIB. -/
structure Key where
  pt : PtEntry
  peer : PeerId
  pathId : ℕ
  deriving DecidableEq, Repr

/-- `struct prefix` in the Adj-RIB-In. -/
structure InPrefix where
  pathIdTx : ℕ
  state : FilterState
  /-- Not in the source: the update that stored the path exceeded the limit of the peer, and
      the Loc-RIBs have not seen the path since. -/
  overLimit : Bool := false
  deriving DecidableEq, Repr

/-- `F_PREFIX_ANNOUNCED` -/
def InPrefix.announced (p : InPrefix) : Bool := p.state.aspath.flags.announced

/-- `struct prefix` in a Loc-RIB. -/
structure LocPrefix where
  pathIdTx : ℕ
  state : FilterState
  filtered : Bool
  deriving DecidableEq, Repr

variable {ρ : Type}

/-- `struct rib` -/
structure InRib (ρ : Type) where
  inRules : ρ
  state : ReconfAction := .none
  table : Key → Option LocPrefix := fun _ => none

/-- What is read of a peer. -/
structure InPeer where
  maxPrefix : ℕ := 0
  prefixCnt : ℕ := 0
  state : PeerState := .down
  deriving DecidableEq, Repr

/-- The input filter: `ACTION_ALLOW` or not, and the changed attributes. The empty list of
    rules denies everything. -/
structure FilterEnv (ρ : Type) where
  filter : ρ → PeerId → PtEntry → FilterState → Bool × FilterState
  noRules : ρ
  deny : ∀ peer pt state, pt.aid.isFlowspec = false → (filter noRules peer pt state).1 = false

/-- The Adj-RIB-In, the Loc-RIBs and the walks. `keys` are the destinations in their order, a
    superset of those with paths. -/
structure RdeIn (ρ : Type) where
  filteredInLocrib : Bool := false
  peers : PeerId → InPeer := fun _ => {}
  ribs : ℕ → Option (InRib ρ)
  ribSize : ℕ := 2
  adjIn : Key → Option InPrefix := fun _ => none
  keys : List PtEntry := []
  /-- The walk of `rde_softreconfig_in`. -/
  soft : Cursor PtEntry := .idle
  /-- The number of walks of a reload that are under way. -/
  softreconfig : ℕ := 0
  /-- The walk of `rde_rpki_softreload`. -/
  rpki : Cursor PtEntry := .idle
  /-- A new configuration is being received. -/
  reconf : Bool := false

variable (env : FilterEnv ρ)

/-- The first Loc-RIB is created with the first configuration, when there are no paths yet, and
    never removed. -/
def RdeIn.init : RdeIn ρ where
  ribs := Function.update (fun _ => none) ribLocStart (some { inRules := env.noRules })

namespace RdeIn

variable (s : RdeIn ρ)

/-! ## Filtering -/

/-- What a RIB holds for a path after `rde_filter` and then `prefix_update` or
    `prefix_withdraw`. A path that is denied is kept in the first Loc-RIB if it has to be. -/
def filterEntry (filteredInLocrib : Bool) (id : ℕ) (rules : ρ) (k : Key) (p : InPrefix) :
    Option LocPrefix :=
  let (allow, state) := env.filter rules k.peer k.pt p.state
  if allow then some ⟨p.pathIdTx, state, false⟩
  else if filteredInLocrib ∧ id = ribLocStart then some ⟨p.pathIdTx, state, true⟩
  else none

/-- The loops over the RIBs from `RIB_LOC_START` on. -/
def forRibs (f : ℕ → InRib ρ → InRib ρ) : RdeIn ρ :=
  { s with ribs := fun id => if id < ribLocStart then s.ribs id else (s.ribs id).map (f id) }

/-- `rde_filter` for some paths and a RIB. -/
def refilter (todo : Key → Option InPrefix) (id : ℕ) (rib : InRib ρ) : InRib ρ :=
  { rib with table := fun k =>
      match todo k with
      | none => rib.table k
      | some p => filterEntry env s.filteredInLocrib id rib.inRules k p }

/-! ## Paths come and go -/

def addKey (pt : PtEntry) : RdeIn ρ :=
  if pt ∈ s.keys then s else { s with keys := insertKey pt s.keys }

def setPeer (q : PeerId) (peer : InPeer) : RdeIn ρ :=
  { s with peers := Function.update s.peers q peer }

/-- A single path. -/
def one (k : Key) (p : InPrefix) : Key → Option InPrefix :=
  fun k' => if k' = k then some p else none

/-- `rde_update_update` for a peer whose session is up. A path keeps its `path_id_tx`, else
    `prefix_update` ends with "path_id mismatch". -/
def rdeUpdateUpdate (k : Key) (pathIdTx : ℕ) (state : FilterState) : Option (RdeIn ρ) :=
  let peer := s.peers k.peer
  if k.peer = peerself ∨ peer.state ≠ .up ∨ k.pt.aid.isFlowspec ∨ state.aspath.flags.announced ∨
      ∃ p ∈ s.adjIn k, p.pathIdTx ≠ pathIdTx then none
  else
    let peer := if (s.adjIn k).isNone then { peer with prefixCnt := peer.prefixCnt + 1 } else peer
    -- max prefix checker
    let exceeded : Bool := peer.maxPrefix ≠ 0 ∧ peer.prefixCnt > peer.maxPrefix
    let p : InPrefix := { pathIdTx := pathIdTx, state := state, overLimit := exceeded }
    let s :=
      { (s.addKey k.pt).setPeer k.peer peer with adjIn := Function.update s.adjIn k (some p) }
    if exceeded then some (s.setPeer k.peer { peer with state := .err })
    else some (s.forRibs (s.refilter env (one k p)))

/-- A path is removed from all RIBs. -/
def removePath (k : Key) : RdeIn ρ :=
  { s.forRibs (fun _ rib => { rib with table := Function.update rib.table k none }) with
    adjIn := Function.update s.adjIn k none }

def countDown (q : PeerId) : RdeIn ρ :=
  s.setPeer q { s.peers q with prefixCnt := (s.peers q).prefixCnt - 1 }

/-- `rde_update_withdraw` -/
def rdeUpdateWithdraw (k : Key) : Option (RdeIn ρ) :=
  if k.peer = peerself ∨ (s.peers k.peer).state ≠ .up then none
  else some ((if (s.adjIn k).isSome then s.countDown k.peer else s).removePath k)

/-- One round of the loop in `peer_flush_upcall`. -/
def flushPath (q : PeerId) (s : RdeIn ρ) (x : PtEntry × ℕ) : RdeIn ρ :=
  let k : Key := ⟨x.1, q, x.2⟩
  if (s.adjIn k).isSome then (s.countDown q).removePath k else s

/-- `peer_flush` with the paths that are old enough. -/
def peerFlush (q : PeerId) (old : List (PtEntry × ℕ)) : Option (RdeIn ρ) :=
  if q = peerself then none else some (old.foldl (flushPath q) s)

/-- `peer_down`: all paths of the peer are flushed. -/
def peerDown (q : PeerId) : RdeIn ρ :=
  let gone := fun k : Key => k.peer = q ∧ (s.adjIn k).isSome
  let s' := s.forRibs fun _ rib =>
    { rib with table := fun k => if gone k then none else rib.table k }
  { s'.setPeer q { s.peers q with state := .down, prefixCnt := 0 } with
    adjIn := fun k => if k.peer = q then none else s.adjIn k }

/-- `peer_up`: a peer with an error is reset first. -/
def peerUp (q : PeerId) : Option (RdeIn ρ) :=
  if q = peerself then none
  else
    let s := if (s.peers q).state = .err then s.peerDown q else s
    some (s.setPeer q { s.peers q with state := .up })

/-- `network_add` -/
def networkAdd (pt : PtEntry) (pathIdTx : ℕ) (state : FilterState) : Option (RdeIn ρ) :=
  let k : Key := ⟨pt, peerself, 0⟩
  if state.aspath.flags.announced = false then none
  else
    let lp : LocPrefix := ⟨pathIdTx, state, false⟩
    let s' := (s.addKey pt).forRibs fun _ rib =>
      { rib with table := Function.update rib.table k (some lp) }
    let p : InPrefix := { pathIdTx := pathIdTx, state := state }
    some { s' with adjIn := Function.update s.adjIn k (some p) }

/-- `network_delete` -/
def networkDelete (pt : PtEntry) : RdeIn ρ := s.removePath ⟨pt, peerself, 0⟩

/-! ## Visits -/

/-- `prefix_set_vstate` -/
def setVstate (p : InPrefix) (vstate : ℕ) : InPrefix :=
  { p with state := { p.state with vstate := vstate } }

/-- The paths that `rde_rpki_softreload` finds with another validation state. -/
def rpkiChanged (vstate : Key → ℕ) (pt : PtEntry) (k : Key) : Option InPrefix :=
  if k.pt = pt then (s.adjIn k).filter fun p => vstate k ≠ p.state.vstate else none

/-- `rde_rpki_softreload`. Announced networks are never filtered. -/
def rdeRpkiSoftreload (vstate : Key → ℕ) (pt : PtEntry) (s : RdeIn ρ) : RdeIn ρ :=
  let changed := fun k => (s.rpkiChanged vstate pt k).map fun p =>
    if p.announced then setVstate p (vstate k)
    else { setVstate p (vstate k) with overLimit := false }
  { s.forRibs (s.refilter env fun k => (changed k).filter fun p => !p.announced) with
    adjIn := fun k => (changed k).or (s.adjIn k) }

/-- `rde_softreconfig_in`: only RIBs that are reloaded are filled again. -/
def rdeSoftreconfigIn (vstate : Key → ℕ) (pt : PtEntry) (s : RdeIn ρ) : RdeIn ρ :=
  let paths := fun k : Key =>
    if k.pt = pt then (s.adjIn k).map fun p => setVstate p (vstate k) else none
  let s' := s.forRibs fun id rib =>
    if rib.state ≠ .reload then rib
    else s.refilter env (fun k => (paths k).filter fun p => !p.announced) id rib
  { s' with adjIn := fun k => (paths k).or (s.adjIn k) }

/-- A round of a walk over the Adj-RIB-In. -/
def round (call : PtEntry → RdeIn ρ → RdeIn ρ) (c : Cursor PtEntry) (n : ℕ) :
    Option (Cursor PtEntry × RdeIn ρ) :=
  walkKeys (fun _ _ => false) (fun pt s => some (call pt s)) n (s.keys.filter (c.ahead ptLe)) s

/-- `rde_rpki_reload` -/
def rdeRpkiReload : RdeIn ρ := if s.rpki = .idle then { s with rpki := .start } else s

/-- `rib_dump_r` for the walk of `rde_rpki_softreload`. -/
def rpkiDumpR (n : ℕ) (vstate : Key → ℕ) : Option (RdeIn ρ) :=
  if s.rpki = .idle then none
  else (s.round (rdeRpkiSoftreload env vstate) s.rpki n).map fun x => { x.2 with rpki := x.1 }

/-- `rde_softreconfig_in_done`. What follows it only reads the Loc-RIBs. -/
def rdeSoftreconfigInDone : RdeIn ρ :=
  let s := { s with softreconfig := s.softreconfig - 1 }
  -- one guy done but other dumps are still running
  if s.softreconfig > 0 then s
  else { s with ribs := fun id => (s.ribs id).map fun rib => { rib with state := .none } }

/-- `rib_dump_r` for the walk of `rde_softreconfig_in`. -/
def softDumpR (n : ℕ) (vstate : Key → ℕ) : Option (RdeIn ρ) :=
  if s.soft = .idle then none
  else (s.round (rdeSoftreconfigIn env vstate) s.soft n).map fun (soft, s) =>
    let s := { s with soft := soft }
    if soft = .idle then s.rdeSoftreconfigInDone else s

/-- An Adj-RIB-Out that had to be flushed is empty. -/
def flushDone : Option (RdeIn ρ) :=
  if s.softreconfig > (if s.soft = .idle then 0 else 1) then some s.rdeSoftreconfigInDone else none

/-! ## Reloads -/

/-- `IMSG_RECONF_CONF`. The parent waits until the last reload is done. -/
def reconfConf : Option (RdeIn ρ) :=
  if s.reconf ∨ s.soft ≠ .idle ∨ s.softreconfig ≠ 0 then none
  else some { s with
    reconf := true
    ribs := fun id => (s.ribs id).map fun rib => { rib with state := .delete } }

/-- `IMSG_RECONF_RIB` -/
def reconfRib (id : ℕ) (changed : Bool) : Option (RdeIn ρ) :=
  if s.reconf = false then none
  else
    let rib := match s.ribs id with
      | none => { inRules := env.noRules, state := .reinit }
      | some rib => { rib with state := if changed then .reload else .keep }
    -- rib_new takes the first id that is free
    if id < ribLocStart then none
    else some { s with
      ribs := Function.update s.ribs id (some rib), ribSize := max s.ribSize (id + 1) }

variable [DecidableEq ρ]

/-- The `switch` of `rde_reload_done` over the state of a RIB. -/
def reloadRib (force : Bool) (rules : ℕ → ρ) (id : ℕ) (rib : InRib ρ) : Option (InRib ρ) :=
  let rib' := { rib with inRules := rules id }
  match rib.state with
  | .delete => none
  | .reload | .keep =>
    -- rib is in sync
    if ¬(force ∧ id = ribLocStart) ∧ rules id = rib.inRules then some { rib' with state := .keep }
    else some { rib' with state := .reload }
  | .reinit => some { rib' with state := .reload }
  | .none => some rib'

/-- `rde_reload_done`: the new value of `filtered_in_locrib`, the new rules, if the role of a
    peer changed, and the number of Adj-RIB-Outs that have to be flushed. The first Loc-RIB is
    part of every configuration. -/
def rdeReloadDone (filtered : Bool) (rules : ℕ → ρ) (roleChange : Bool) (flushes : ℕ) :
    Option (RdeIn ρ) :=
  if s.reconf = false ∨ ∃ rib ∈ s.ribs ribLocStart, rib.state = .delete then none
  else
    let force : Bool := s.filteredInLocrib ≠ filtered
    let ribs := fun id => (s.ribs id).bind (reloadRib force rules id)
    let reload := roleChange ||
      (List.range s.ribSize).any fun id => (ribs id).any fun rib => rib.state = .reload
    let s := { s with
      reconf := false, filteredInLocrib := filtered, ribs := ribs, softreconfig := flushes + 1 }
    if reload then some { s with soft := .start } else some s.rdeSoftreconfigInDone

end RdeIn

/-! ## Events -/

inductive InEvent (ρ : Type) where
  | update (k : Key) (pathIdTx : ℕ) (state : FilterState)
  | withdraw (k : Key)
  | flush (q : PeerId) (old : List (PtEntry × ℕ))
  | peerUp (q : PeerId)
  | peerDown (q : PeerId)
  /-- The session is down, but the paths are kept for a graceful restart. -/
  | peerStale (q : PeerId)
  | maxPrefix (q : PeerId) (n : ℕ)
  | networkAdd (pt : PtEntry) (pathIdTx : ℕ) (state : FilterState)
  | networkDelete (pt : PtEntry)
  | rpkiReload
  | rpkiDumpR (n : ℕ) (vstate : Key → ℕ)
  | softDumpR (n : ℕ) (vstate : Key → ℕ)
  | flushDone
  | reconfConf
  | reconfRib (id : ℕ) (changed : Bool)
  | reloadDone (filtered : Bool) (rules : ℕ → ρ) (roleChange : Bool) (flushes : ℕ)

/-- One event. -/
def inStep [DecidableEq ρ] (s : RdeIn ρ) : InEvent ρ → Option (RdeIn ρ)
  | .update k pathIdTx state => s.rdeUpdateUpdate env k pathIdTx state
  | .withdraw k => s.rdeUpdateWithdraw k
  | .flush q old => s.peerFlush q old
  | .peerUp q => s.peerUp q
  | .peerDown q => if q = peerself then none else some (s.peerDown q)
  | .peerStale q => some (s.setPeer q { s.peers q with state := .down })
  | .maxPrefix q n => some (s.setPeer q { s.peers q with maxPrefix := n })
  | .networkAdd pt pathIdTx state => s.networkAdd pt pathIdTx state
  | .networkDelete pt => some (s.networkDelete pt)
  | .rpkiReload => some s.rdeRpkiReload
  | .rpkiDumpR n vstate => s.rpkiDumpR env n vstate
  | .softDumpR n vstate => s.softDumpR env n vstate
  | .flushDone => s.flushDone
  | .reconfConf => s.reconfConf
  | .reconfRib id changed => s.reconfRib env id changed
  | .reloadDone filtered rules roleChange flushes =>
    s.rdeReloadDone filtered rules roleChange flushes

end Bgpd.Rde.Softreconfig
