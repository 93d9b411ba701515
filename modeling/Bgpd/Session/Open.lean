import Bgpd.Session.State

/-!
# The OPEN Message

Model of `session_open`, `parse_open`, `parse_capabilities` and `capa_neg_calc` in
`session_bgp.c`. The capabilities stand in the message in the order of the code.

## Main definitions

- `openMsg`, `Cur.sessionOpen`: what is announced
- `Cur.parseOpen`: `parse_open`, and whether it accepts the message
- `Cur.capaNegCalc`: `capa_neg_calc`
-/

namespace Bgpd.Session

open Rde (Aid Role)

namespace OpenErr

/-- `ERR_OPEN_VERSION` -/
def version : ℕ := 1
/-- `ERR_OPEN_AS` -/
def as : ℕ := 2
/-- `ERR_OPEN_BGPID` -/
def bgpid : ℕ := 3
/-- `ERR_OPEN_OPT` -/
def opt : ℕ := 4
/-- `ERR_OPEN_HOLDTIME` -/
def holdtime : ℕ := 6
/-- `ERR_OPEN_CAPA` -/
def capa : ℕ := 7
/-- `ERR_OPEN_ROLE` -/
def role : ℕ := 11

end OpenErr

/-! ## Sending -/

/-- `role2capa` -/
def role2capa : Role → ℕ
  | .provider => 0
  | .rs => 1
  | .rsClient => 2
  | .customer => 3
  | .peer => 4
  -- unsupported role for role capability
  | .none => 255

/-- `capa2role` -/
def capa2role : ℕ → Role
  | 0 => .provider
  | 1 => .rs
  | 2 => .rsClient
  | 3 => .customer
  | 4 => .peer
  | _ => .none

/-- The bits of `CAPA_AP_BIDIR`. -/
def AddPath.val (a : AddPath) : ℕ := (if a.recv then 1 else 0) + if a.send then 2 else 0

/-- One capability, if the condition holds. -/
def capaIf (b : Bool) (capa : Capa) : List Capa := if b then [capa] else []

/-- The families that are announced. -/
def annMps (ann : Capabilities) : List Aid := Aid.all.filter fun aid => ann.mp aid ≠ 0

/-- BGP open policy, RFC 9234, only for ebgp sessions. -/
def openRole (p : Peer) : Bool :=
  p.conf.ebgp && p.capa.ann.policy ≠ 0 && p.conf.role ≠ .none &&
    (p.capa.ann.mp .inet ≠ 0 || p.capa.ann.mp .inet6 ≠ 0 || annMps p.capa.ann = [])

/-- The capabilities that `session_open` puts into the message. -/
def openCapas (p : Peer) : List Capa :=
  let ann := p.capa.ann
  let mps := annMps ann
  let extNh := [Aid.inet, Aid.vpn4].filter fun aid => ann.mp aid ≠ 0
  let addPath := if mps = [] then [Aid.inet] else mps
  -- only set the R-flag if no graceful restart is ongoing
  let rFlag := Aid.all.all fun aid => !(p.capa.neg.grestart.flags aid).restarting
  List.flatten [
    mps.map fun aid => .mp (some aid),
    capaIf (ann.refresh ≠ 0) .refresh,
    capaIf (ann.extNh .inet ≠ 0) (.extNexthop (extNh.map fun aid => (some aid, true)) false),
    capaIf (ann.extMsg ≠ 0) .extMsg,
    capaIf (openRole p) (.role (role2capa p.conf.role)),
    capaIf (ann.grestart.restart ≠ 0) (.restart rFlag (ann.grestart.grnotification ≠ 0) 0 []),
    capaIf (ann.as4byte ≠ 0) (.as4byte p.conf.localAs),
    capaIf (ann.addPath .inet ≠ {})
      (.addPath (addPath.map fun aid => (some aid, (ann.addPath aid).val))),
    capaIf (ann.enhancedRr ≠ 0) .enhancedRr]

/-- The message of `session_open`. -/
def openMsg (p : Peer) : OpenMsg where
  shortAs := p.conf.localShortAs
  holdtime := p.conf.holdtime
  bgpid := p.localBgpid
  params := match openCapas p with
    | [] => []
    | capas => [.capabilities capas false]

namespace Cur

/-- `session_open` -/
def sessionOpen (env : Env) (c : Cur) : Cur := c.trySend env (.open (openMsg c.peer)) id

/-! ## Negotiation -/

/-- Replace the negotiated capabilities. -/
def setNeg (f : Capabilities → Capabilities) (c : Cur) : Cur :=
  c.modify fun p => { p with capa := { p.capa with neg := f p.capa.neg } }

/-- Replace the capabilities of the neighbor. -/
def setPeerCapa (f : Capabilities → Capabilities) (c : Cur) : Cur :=
  c.modify fun p => { p with capa := { p.capa with peer := f p.capa.peer } }

/-- A capability is accepted only if both sides announced it. -/
def both (a b : ℕ) : ℕ := if a ≠ 0 ∧ b ≠ 0 then 1 else 0

/-- The negotiated families; without a multiprotocol capability IPv4 unicast. -/
def negMp (ann peer : Capabilities) (aid : Aid) : ℕ :=
  if peer.mpUnknown = false ∧ (∀ a : Aid, ann.mp a = 0 ∧ peer.mp a = 0) ∧ aid = .inet then 1
  else both (ann.mp aid) (peer.mp aid)

/-- The first part of `capa_neg_calc`. -/
def negBasic (c : Cur) : Cur :=
  let ann := c.peer.capa.ann
  let peer := c.peer.capa.peer
  c.setNeg fun neg => { neg with
    refresh := both ann.refresh peer.refresh
    enhancedRr := both ann.enhancedRr peer.enhancedRr
    as4byte := both ann.as4byte peer.as4byte
    extMsg := both ann.extMsg peer.extMsg
    mp := negMp ann peer }

/-- Disable graceful restart if the AFI/SAFI is not present. -/
def disableGr (c : Cur) (aid : Aid) : Cur :=
  if (c.peer.capa.peer.grestart.flags aid).present ∧ c.peer.capa.neg.mp aid = 0 then
    c.setPeerCapa fun peer => { peer with grestart := { peer.grestart with
      flags := Function.update peer.grestart.flags aid {} } }
  else c

/-- The restart of the family can go on in the new session. -/
def grGoesOn (p : Peer) (aid : Aid) : Bool :=
  p.capa.ann.grestart.restart ≠ 0 && (p.capa.peer.grestart.flags aid).forward

/-- The negotiated restart flags of the family. -/
def negGrFlags (p : Peer) (aid : Aid) : GrFlags :=
  let peerflags := p.capa.peer.grestart.flags aid
  if (p.capa.neg.grestart.flags aid).pending && grGoesOn p aid then
    { peerflags with restarting := true }
  else peerflags

/-- The routes of a restart that does not go on are flushed. -/
def negGrFlush (c : Cur) (aid : Aid) : Cur :=
  if (c.peer.capa.neg.grestart.flags aid).pending && !grGoesOn c.peer aid then
    c.sessionGracefulFlush aid
  else c

/-- The loop body of `capa_neg_calc` about graceful restart: a restart goes on, or its routes are
    flushed. -/
def negGrAid (c : Cur) (aid : Aid) : Cur :=
  let c := (c.disableGr aid).negGrFlush aid
  if c.peer.capa.ann.grestart.restart ≠ 0 then c.setGr aid fun _ => negGrFlags c.peer aid else c

/-- The rest of the graceful restart capability, and what both sides have to agree on. -/
def negRest (c : Cur) : Cur :=
  let ann := c.peer.capa.ann
  let peer := c.peer.capa.peer
  let addPath : Aid → AddPath := fun aid =>
    if c.peer.capa.neg.mp aid = 0 then {}
    else { recv := (ann.addPath aid).recv && (peer.addPath aid).send
           send := (ann.addPath aid).send && (peer.addPath aid).recv }
  c.setNeg fun neg => { neg with
    grestart := { neg.grestart with
      timeout := peer.grestart.timeout
      restart := if ann.grestart.restart = 0 then 0 else peer.grestart.restart
      grnotification := both ann.grestart.grnotification peer.grestart.grnotification }
    extNh := fun aid => if neg.mp aid = 0 then 0 else both (ann.extNh aid) (peer.extNh aid)
    addPath := addPath
    addPathAny := { recv := Aid.all.any fun aid => (addPath aid).recv
                    send := Aid.all.any fun aid => (addPath aid).send } }

/-- The roles of RFC 9234 match. -/
def rolesMatch : Role → Role → Bool
  | .provider, .customer | .rs, .rsClient | .rsClient, .rs | .customer, .provider
  | .peer, .peer => true
  | _, _ => false

/-- A capability that is enforced is missing. -/
def enforcedMissing (p : Peer) : Bool :=
  let ann := p.capa.ann
  let neg := p.capa.neg
  (ann.refresh = 2 && neg.refresh = 0) || (ann.extMsg = 2 && neg.extMsg = 0) ||
  (ann.enhancedRr = 2 && neg.enhancedRr = 0) || (ann.as4byte = 2 && neg.as4byte = 0) ||
  (ann.grestart.restart = 2 && neg.grestart.restart = 0) ||
  (Aid.all.any fun aid => ann.mp aid = 2 && neg.mp aid = 0) ||
  (Aid.all.any fun aid => neg.mp aid ≠ 0 &&
    (((ann.addPath aid).recvEnforce && !(neg.addPath aid).recv) ||
      ((ann.addPath aid).sendEnforce && !(neg.addPath aid).send))) ||
  (Aid.all.any fun aid => neg.mp aid ≠ 0 && (ann.extNh aid = 2 && neg.extNh aid = 0))

/-- Both sides announced the open policy, RFC 9234. -/
def policyBoth (p : Peer) : Bool :=
  p.capa.ann.policy ≠ 0 && p.capa.peer.policy ≠ 0 && p.conf.ebgp

/-- The role capability is enforced and missing. -/
def policyMissing (p : Peer) : Bool :=
  p.capa.ann.policy = 2 && p.capa.peer.policy = 0 && p.conf.ebgp

/-- The policy is negotiated. -/
def negPolicy (c : Cur) : Cur :=
  if policyBoth c.peer then c.setNeg fun neg => { neg with policy := 1 } else c

/-- The checks at the end of `capa_neg_calc`. -/
def negCheck (env : Env) (c : Cur) : Cur × Bool :=
  if policyBoth c.peer && !rolesMatch c.peer.conf.role c.peer.remoteRole then
    (c.sessionNotification env .open OpenErr.role, false)
  -- enforce presence of open policy role capability
  else if policyMissing c.peer then
    (c.negPolicy.sessionNotification env .open OpenErr.role, false)
  -- enforce presence of other capabilities
  else if enforcedMissing c.negPolicy.peer then
    (c.negPolicy.sessionNotification env .open OpenErr.capa, false)
  else (c.negPolicy, true)

/-- `capa_neg_calc`, and whether it succeeds. -/
def capaNegCalc (env : Env) (c : Cur) : Cur × Bool :=
  (Aid.all.foldl negGrAid c.negBasic).negRest.negCheck env

/-! ## Parsing -/

/-- The families of a graceful restart capability. -/
def grEntries (rFlag : Bool) (gr : Grestart) : List (Option Aid × Bool) → Grestart
  | [] => gr
  | (some aid, forward) :: rest =>
    grEntries rFlag { gr with
      flags := Function.update gr.flags aid
        { present := true, forward := forward, restart := rFlag }
      restart := 2 } rest
  | (none, _) :: rest => grEntries rFlag gr rest

/-- `CAPA_RESTART` -/
def grCapa (rFlag nFlag : Bool) (timeout : ℕ) (entries : List (Option Aid × Bool)) : Grestart :=
  let gr : Grestart := { grnotification := if nFlag then 1 else 0 }
  -- peer only supports EoR marker
  if entries = [] then { gr with restart := 1 }
  else if timeout = 0 then {}
  else grEntries rFlag { gr with timeout := timeout } entries

/-- The families of an ADD-PATH capability. One that is not known or has bad flags clears all. -/
def addPathEntries (a : Aid → AddPath) : List (Option Aid × ℕ) → Aid → AddPath
  | [] => a
  | (some aid, flags) :: rest =>
    if flags > 3 then fun _ => {}
    else addPathEntries (Function.update a aid
      { recv := flags.testBit 0, send := flags.testBit 1 }) rest
  | (none, _) :: _ => fun _ => {}

/-- The families of an extended nexthop capability. -/
def extNhEntries (a : Aid → ℕ) : List (Option Aid × Bool) → Aid → ℕ
  | [] => a
  | (some .inet, true) :: rest => extNhEntries (Function.update a .inet 1) rest
  | (some .vpn4, true) :: rest => extNhEntries (Function.update a .vpn4 1) rest
  | _ :: rest => extNhEntries a rest

/-- The capability of the neighbor in its record; `CAPA_ROLE` and `CAPA_AS4BYTE` are treated by
    the caller. -/
def capaRecord (capa : Capa) (peer : Capabilities) : Capabilities :=
  match capa with
  | .mp none => { peer with mpUnknown := true }
  | .mp (some aid) => { peer with mp := Function.update peer.mp aid 1 }
  | .refresh => { peer with refresh := 1 }
  | .extNexthop entries bad =>
    { peer with extNh := if bad then fun _ => 0 else extNhEntries peer.extNh entries }
  | .extMsg => { peer with extMsg := 1 }
  | .restart rFlag nFlag timeout entries =>
    { peer with grestart := grCapa rFlag nFlag timeout entries }
  | .badRestart => { peer with grestart := {} }
  | .badAs4byte => { peer with as4byte := 0 }
  | .addPath entries => { peer with addPath := addPathEntries peer.addPath entries }
  | .badAddPath => { peer with addPath := fun _ => {} }
  | .enhancedRr => { peer with enhancedRr := 1 }
  | .role _ | .as4byte _ | .ignored => peer

/-- The message is rejected. -/
def rejectOpen (env : Env) (msg : OpenMsg) (subcode : ℕ) (c : Cur) : Cur :=
  (c.sessionNotification env .open subcode).changeState env .idle (.rcvdOpen msg)

/-- `parse_capabilities`: the AS number, or `none` if the capabilities are not accepted. -/
def parseCapabilities (env : Env) (msg : OpenMsg) (bad : Bool) (as : ℕ) (c : Cur) :
    List Capa → Cur × Option ℕ
  | [] => (c, if bad then none else some as)
  | .role val :: rest =>
    -- received role capability on iBGP session
    if c.peer.conf.ebgp = false then parseCapabilities env msg bad as c rest
    else parseCapabilities env msg bad as
      ((c.setPeerCapa fun peer => { peer with policy := 1 }).modify fun p =>
        { p with remoteRole := capa2role val }) rest
  | .as4byte 0 :: _ => (c.rejectOpen env msg OpenErr.as, none)
  | .as4byte as :: rest =>
    parseCapabilities env msg bad as
      (c.setPeerCapa fun peer => { peer with as4byte := 1 }) rest
  | capa :: rest => parseCapabilities env msg bad as (c.setPeerCapa (capaRecord capa)) rest

/-- The loop over the optional parameters. -/
def parseParams (env : Env) (msg : OpenMsg) (as : ℕ) (c : Cur) : List OptParam → Cur × Option ℕ
  | [] => if msg.badLen then (c.rejectOpen env msg 0, none) else (c, some as)
  | .unsupported :: _ => (c.rejectOpen env msg OpenErr.opt, none)
  | .capabilities capas bad :: rest =>
    match parseCapabilities env msg bad as c capas with
    | (c, none) => (c.rejectOpen env msg 0, none)
    | (c, some as) => parseParams env msg as c rest

/-- A cloned neighbor accepts any AS on its first connect. -/
def learnAs (as : ℕ) (c : Cur) : Cur :=
  if c.peer.template.isSome ∧ c.peer.conf.remoteAs = 0 ∧ as ≠ asTrans then
    c.modify fun p => { p with conf := { p.conf with
      remoteAs := as
      ebgp := as ≠ p.conf.localAs
      -- force enforce_as off for iBGP sessions
      enforceAs := if as = p.conf.localAs then .off else p.conf.enforceAs } }
  else c

/-- The checks of `parse_open` behind the parameters. -/
def finishOpen (env : Env) (msg : OpenMsg) (as : ℕ) (c : Cur) : Cur × Bool :=
  let c := c.learnAs as
  if c.peer.conf.remoteAs ≠ as then (c.rejectOpen env msg OpenErr.as, false)
  else if c.peer.conf.ebgp = false ∧ c.peer.remoteBgpid = c.peer.localBgpid then
    (c.rejectOpen env msg OpenErr.bgpid, false)
  else
    match c.capaNegCalc env with
    | (c, true) => (c, true)
    | (c, false) => (c.changeState env .idle (.rcvdOpen msg), false)

/-- `parse_open`, and whether the message is accepted. -/
def parseOpen (env : Env) (msg : OpenMsg) (c : Cur) : Cur × Bool :=
  if msg.version ≠ 4 then (c.rejectOpen env msg OpenErr.version, false)
  else
    let c := c.modify fun p => { p with shortAs := msg.shortAs }
    if msg.shortAs = 0 then (c.rejectOpen env msg OpenErr.as, false)
    else if msg.holdtime ≠ 0 ∧ msg.holdtime < c.peer.conf.minHoldtime then
      (c.rejectOpen env msg OpenErr.holdtime, false)
    else
      let c := c.modify fun p => { p with holdtime := min msg.holdtime p.conf.holdtime }
      if msg.bgpid = 0 then (c.rejectOpen env msg OpenErr.bgpid, false)
      else
        let c := c.modify fun p => { p with remoteBgpid := msg.bgpid }
        match parseParams env msg msg.shortAs c msg.params with
        | (c, none) => (c, false)
        | (c, some as) => c.finishOpen env msg as

end Cur

end Bgpd.Session
