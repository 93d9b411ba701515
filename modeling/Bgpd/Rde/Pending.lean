import Bgpd.Rde.Peer

/-!
# Pending Updates and Reloads of the Configuration

The pending updates of a RIB entry point to paths of the entry. What they point to is looked at
when the entry is processed, and by then paths may have been removed and the configuration may have
been reloaded. This module adds to the events of the RDE what a reload does: `rde_reload_done`
changes `rde_eval_all`, the peers and the flags of the RIBs, `rib_free` deletes a RIB,
`rde_softreconfig_sync_reeval` evaluates a RIB again, and `peer_delete` deletes a peer. It also
adds the RIB of flowspec rules.

A RIB is named by its `struct rib`, so that a new RIB is not mistaken for a deleted one. The
functions of the Adj-RIB-Out that a reload starts do not look at queued entries and are left out.

## Layout

- `syncReeval`, `ribFree`, `peerDelete`: reloads
- `prefixFlowspecUpdate`, `prefixFlowspecWithdraw`
- `PqEvent`, `pqStep`: the system
-/

namespace Bgpd.Rde

/-! ## Reloads -/

/-- The configuration after `rib_free` has set the flags of a RIB. -/
def RdeConfig.noEvaluate (cfg : RdeConfig) (rib : ℕ) : RdeConfig :=
  { cfg with
    ribFlags := fun i => if i = rib then { cfg.ribFlags i with noevaluate := true, nofib := true }
      else cfg.ribFlags i
    adjIn := by
      split_ifs
      · rfl
      · exact cfg.adjIn }

/-- The loop of `rib_free` over the paths of an entry. -/
def RdeState.ribFreeEntry (cfg : RdeConfig) (s : RdeState) (rib : ℕ) (pt : PtEntry) : RdeState :=
  (s.entry rib pt).prefixH.foldl (fun s p => s.prefixDestroy cfg rib pt p) s

/-- `rib_free`, after the flags were set. -/
def RdeState.ribFree (cfg : RdeConfig) (s : RdeState) (rib : ℕ) : RdeState :=
  s.keys.foldl (fun s pt => s.ribFreeEntry cfg rib pt) s

/-- `nexthop_unlink` of a path that is linked. -/
def Prefix.unlinked (linked : Ptr → Bool) (p : Prefix) : Prefix :=
  { p with dmetric := dmetricInvalid, nhvalid := p.nhvalid && !linked p.ptr }

/-- `nexthop_link` of a path that is not linked. -/
def Prefix.relinked (linked reach : Ptr → Bool) (p : Prefix) : Prefix :=
  if linked p.ptr then p else { p with nhvalid := p.nexthop.isNone || reach p.ptr }

/-- `rde_softreconfig_sync_reeval` -/
def RdeState.syncReeval (cfg : RdeConfig) (s : RdeState) (rib : ℕ) (pt : PtEntry)
    (linked reach : Ptr → Bool) : RdeState :=
  let re := s.entry rib pt
  if (cfg.ribFlags rib).noevaluate then
    -- all dependent Adj-RIB-Outs were already flushed
    s.setEntry rib pt { re with prefixH := re.prefixH.map (Prefix.unlinked linked) }
  else
    re.prefixH.foldl (fun s p => s.evaluate cfg rib pt (some (p.relinked linked reach)) none)
      (s.setEntry rib pt { re with prefixH := [] })

/-- The end of `peer_delete`: queued entries are handed over to `peerself`. -/
def RdeState.handOver (s : RdeState) (q : PeerId) : RdeState :=
  let s := s.setPeer peerself { s.peers peerself with
    ribPq := (s.peers peerself).ribPq ++ (s.peers q).ribPq }
  s.setPeer q { s.peers q with state := .none, ribPq := [] }

/-- `peer_delete` -/
def RdeState.peerDelete (cfg : RdeConfig) (s : RdeState) (q : PeerId) : RdeState :=
  (if (s.peers q).state = .down then s else s.peerDown cfg q).handOver q

/-! ## Flowspec rules -/

/-- The rule of `peerself` in the RIB of flowspec rules, whose id is the one of the Loc-RIB. -/
def RdeState.flowspecGet (s : RdeState) (pt : PtEntry) : Option Prefix :=
  s.prefixGet ribLocStart peerself 0 pt

/-- `TAILQ_REMOVE` from the list of an entry. -/
def RdeState.unlinkPath (s : RdeState) (rib : ℕ) (pt : PtEntry) (q : Ptr) : RdeState :=
  s.setEntry rib pt { s.entry rib pt with prefixH := tailqRemove (s.entry rib pt).prefixH q }

/-- `TAILQ_INSERT_HEAD` -/
def RdeState.linkPath (s : RdeState) (rib : ℕ) (pt : PtEntry) (p : Prefix) : RdeState :=
  s.setEntry rib pt { s.entry rib pt with prefixH := p :: (s.entry rib pt).prefixH }

/-- `prefix_flowspec_update` -/
def RdeState.prefixFlowspecUpdate (cfg : RdeConfig) (s : RdeState) (pt : PtEntry)
    (state : FilterState) (pathIdTx now : ℕ) : RdeState :=
  let a : PathArgs :=
    { rib := ribLocStart, peer := peerself, pathIdTx := pathIdTx, pt := pt, now := now
      state := { state with nexthop := none, nhflags := {}, vstate := 0 } }
  let old := s.flowspecGet pt
  -- the RIB of flowspec rules has no flags
  let new := { s.prefixLink cfg a with nhvalid := true }
  let s := ({ s with nextPtr := s.nextPtr + 1 }.addKey pt).linkPath ribLocStart pt new
  let s := s.rdeEnqueueUpdates ribLocStart pt
    ⟨some peerself, some new, (old.map (·.pathIdTx)).getD 0, .default⟩
  match old with
  | some o => s.unlinkPath ribLocStart pt o.ptr
  | none => s

/-- `prefix_flowspec_withdraw` -/
def RdeState.prefixFlowspecWithdraw (s : RdeState) (pt : PtEntry) : RdeState :=
  match s.flowspecGet pt with
  | some p => (s.rdeEnqueueUpdates ribLocStart pt
      ⟨some peerself, none, p.pathIdTx, .default⟩).unlinkPath ribLocStart pt p.ptr
  | none => s

/-! ## The system -/

/-- The RDE with its configuration and the RIBs that were deleted. -/
structure PqState where
  cfg : RdeConfig
  rde : RdeState
  freed : ℕ → Bool := fun _ => false

/-- What may happen to the RDE. -/
inductive PqEvent where
  | rde (e : Event)
  /-- `rde_reload_done`: the configuration, `rde_eval_all` and the peers -/
  | reload (cfg : RdeConfig) (evalAll : Bool) (params : PeerId → OutParams)
  /-- a RIB with `RECONF_DELETE` -/
  | ribFree (rib : ℕ)
  | syncReeval (rib : ℕ) (pt : PtEntry) (linked reach : Ptr → Bool)
  | peerDelete (q : PeerId)
  | flowspecAdd (pt : PtEntry) (state : FilterState) (now : ℕ)
  | flowspecDelete (pt : PtEntry)

/-- The entry that a change of a RIB is about. -/
def Event.target : Event → Option (ℕ × PtEntry)
  | .update a => some (a.rib, a.pt)
  | .withdraw rib _ _ pt => some (rib, pt)
  | .nexthop rib pt _ _ _ => some (rib, pt)
  | _ => none

/-- The entry that is processed. -/
def Event.processed (s : RdeState) : Event → Option (ℕ × PtEntry)
  | .process q => (s.peers q).ribPq.head?
  | _ => none

/-- RIBs that exist are changed, and flowspec rules have a RIB of their own. An entry of a deleted
    RIB has no tree from which it could be removed when it was processed. -/
def PqState.allows (σ : PqState) (e : Event) : Bool :=
  e.target.all (fun x => !σ.freed x.1 && !x.2.aid.isFlowspec) &&
    (e.processed σ.rde).all fun x => !σ.freed x.1 || x.2.aid.isFlowspec

/-- One event; `selfId` is the path id of `peerself`. The program ends at a `fatalx`. -/
def pqStep (selfId : ℕ) (σ : PqState) : PqEvent → Option PqState
  | .rde e =>
    if σ.allows e then (rdeStep σ.cfg σ.rde e).map fun s => { σ with rde := s } else none
  | .reload cfg evalAll params =>
    some { σ with
      cfg := cfg
      rde := { σ.rde with
        evalAll := evalAll
        peers := fun q => { σ.rde.peers q with toOutParams := params q } } }
  | .ribFree rib =>
    -- never remove the default ribs
    if rib ≤ ribLocStart then none
    else
      let cfg := σ.cfg.noEvaluate rib
      some { cfg := cfg, rde := σ.rde.ribFree cfg rib, freed := fun i => i = rib || σ.freed i }
  | .syncReeval rib pt linked reach =>
    if σ.freed rib ∨ pt.aid.isFlowspec then none
    else some { σ with rde := σ.rde.syncReeval σ.cfg rib pt linked reach }
  | .peerDelete q =>
    if q = peerself then none
    else some { σ with
      cfg := { σ.cfg with
        peertable := σ.cfg.peertable.erase q
        nodup := σ.cfg.nodup.erase q }
      rde := σ.rde.peerDelete σ.cfg q }
  | .flowspecAdd pt state now =>
    if pt.aid.isFlowspec then
      some { σ with rde := σ.rde.prefixFlowspecUpdate σ.cfg pt state selfId now }
    else none
  | .flowspecDelete pt =>
    if pt.aid.isFlowspec then some { σ with rde := σ.rde.prefixFlowspecWithdraw pt } else none

end Bgpd.Rde
