import Bgpd.Rde.As4Path
import Bgpd.Rde.FilterSet

/-!
# Path Attributes of an UPDATE

Model of `rde_attr_parse`, `rde_as4byte_fixup` and `rde_reflector` in `rde.c`, and of
`community_add`, `community_large_add` and `community_ext_add` in `rde_community.c`. They fill a
`struct filterstate` from the bytes of the message.

The AS path stays in its bytes until all attributes are read. The partial flag of communities and
the log are left out. What ends a session is an `UpdErr`, the arguments of `rde_update_err`.

## Layout

- `getAttr`: the header of an attribute
- `rdeAttrParse`: one attribute
- `rdeAs4byteFixup`, `rdeReflector`: all of them together
-/

namespace Bgpd.Rde.Parse

open Nlri

/-! ## Errors -/

/-- `enum suberr_update` -/
inductive UpdSuberr where
  | attrlist | unknwnWkAttr | missngWkAttr | attrflags | attrlen | nexthop | optattr |
    network | aspath
  deriving DecidableEq, Repr

/-- The arguments of `rde_update_err` with `ERR_UPDATE`. The buffer is rewound, so that all of the
    attribute is sent. -/
structure UpdErr where
  suberr : UpdSuberr
  opt : List UInt8 := []
  deriving DecidableEq, Repr

/-! ## Attributes on the wire -/

/-- `ATTR_EXTLEN` -/
def attrExtlen : UInt8 := 0x10

/-- `ATTR_PARTIAL` -/
def attrPartial : UInt8 := 0x20

/-- `ATTR_TRANSITIVE` -/
def attrTransitive : UInt8 := 0x40

/-- `ATTR_OPTIONAL` -/
def attrOptional : UInt8 := 0x80

/-- `ATTR_WELL_KNOWN` -/
def attrWellKnown : UInt8 := attrTransitive

/-- `ATTR_DEFMASK` -/
def attrDefmask : UInt8 := 0x1f

/-- `CHECK_FLAGS` -/
def checkFlags (s t m : UInt8) : Bool := s &&& ~~~(attrDefmask ||| m) = t

/-- `enum attrtypes`. Those without a case in `rde_attr_parse` are `other`. -/
inductive AttrType where
  | undef | origin | aspath | nexthop | med | localpref | atomicAggregate | aggregator | communities
  | originatorId | clusterList | mpReach | mpUnreach | extCommunities | as4Path | as4Aggregator
  | largeCommunities | otc
  | other
  deriving DecidableEq, Repr

def AttrType.ofByte (type : UInt8) : AttrType :=
  match type.toNat with
  | 0 => .undef
  | 1 => .origin
  | 2 => .aspath
  | 3 => .nexthop
  | 4 => .med
  | 5 => .localpref
  | 6 => .atomicAggregate
  | 7 => .aggregator
  | 8 => .communities
  | 9 => .originatorId
  | 10 => .clusterList
  | 14 => .mpReach
  | 15 => .mpUnreach
  | 16 => .extCommunities
  | 17 => .as4Path
  | 18 => .as4Aggregator
  | 32 => .largeCommunities
  | 35 => .otc
  | _ => .other

/-- An attribute of a message: `bytes` is all of it, `data` what is behind the header. -/
structure RawAttr where
  flags : UInt8
  type : UInt8
  data : List UInt8
  bytes : List UInt8
  deriving DecidableEq, Repr

/-- The start of `rde_attr_parse`: the attribute and the rest of the buffer. -/
def getAttr (buf : List UInt8) : Option (RawAttr × List UInt8) :=
  match buf with
  | flags :: type :: rest => do
    let (alen, hlen) ←
      if flags &&& attrExtlen ≠ 0 then (As4.ibufGetN16 rest).map fun x => (x.1.toNat, 4)
      else (ibufGetN8 rest).map fun x => (x.1, 3)
    if buf.length < hlen + alen then none
    return (⟨flags, type, (buf.take (hlen + alen)).drop hlen, buf.take (hlen + alen)⟩,
      buf.drop (hlen + alen))
  | _ => none

/-- Bytes as a number. -/
def beNat (data : List UInt8) : ℕ := data.foldl (fun n b => n * 256 + b.toNat) 0

/-! ## State -/

/-- What is read of the peer. -/
structure ParsePeer where
  ebgp : Bool := true
  as4byte : Bool := true
  permitAsSet : Bool := false
  role : Role := .none
  remoteAs : ℕ := 0
  localAs : ℕ := 0
  remoteBgpid : ℕ := 0
  /-- `ENFORCE_AS_ON` for the neighbor AS and the local AS. -/
  enforceAs : Bool := true
  enforceLocalAs : Bool := true
  localIfScope : ℕ := 0
  mp : Aid → Bool := fun _ => false
  extNh : Aid → Bool := fun _ => false
  /-- `capa.add_path` with `CAPA_AP_RECV` -/
  addPathRecv : Aid → Bool := fun _ => false

/-- What is read of `struct bgpd_config`. -/
structure ParseConf where
  bgpid : ℕ := 0
  clusterid : ℕ := 0
  /-- `BGPD_FLAG_REFLECTOR` -/
  reflector : Bool := false

/-- The `filterstate` that is filled, with the bytes of the AS path, and `reach` and `unreach`. -/
structure ParseState where
  state : FilterState := { aspath := { origin := 2 } }
  path : List UInt8 := []
  reach : Option RawAttr := none
  unreach : Option RawAttr := none

/-- The bits `F_ATTR_ORIGIN` to `F_ATTR_AS4BYTE_NEW` of `seen`. -/
def seenOrigin : ℕ := 0
def seenAspath : ℕ := 1
def seenNexthop : ℕ := 2
def seenLocalpref : ℕ := 3
def seenMpReach : ℕ := 6
def seenMpUnreach : ℕ := 7
def seenAs4byteNew : ℕ := 8

namespace ParseState

variable (st : ParseState)

def flags : AspathFlags := st.state.aspath.flags

/-- A change of the `rde_aspath`. -/
def mapAspath (f : RdeAspath → RdeAspath) : ParseState :=
  { st with state := { st.state with aspath := f st.state.aspath } }

/-- A change of its flags. -/
def mapFlags (f : AspathFlags → AspathFlags) : ParseState :=
  st.mapAspath fun a => { a with flags := f a.flags }

/-- Is a flag of an attribute set? -/
def hasSeen (bit : ℕ) : Bool := st.flags.seen.testBit bit

/-- Set the flag of an attribute. -/
def setSeen (bit : ℕ) : ParseState := st.mapFlags fun f => { f with seen := f.seen ||| 2 ^ bit }

/-- Mark the update as bad and withdraw all routes as per RFC 7606. -/
def setParseErr : ParseState := st.mapFlags fun f => { f with parseErr := true }

def setOthers (others : List Attr) : ParseState := st.mapAspath fun a => { a with others := others }

/-- `attr_optadd`: an attribute is allowed only once. Its flags are normalized. -/
def optadd (flags : UInt8) (type : UInt8) (data : List UInt8) : Option ParseState :=
  let others := st.state.aspath.others
  if (attrOptget others type.toNat).isSome then none
  else
    some (st.setOthers (attrOptadd ⟨(flags &&& ~~~attrDefmask).toNat, type.toNat,
      data.map UInt8.toNat⟩ others))

end ParseState

/-! ## Communities -/

/-- The loop of `community_add`. -/
def addBasic : List UInt8 → List Community → List Community
  | a :: b :: x :: y :: buf, comm =>
    addBasic buf (Filter.insertCommunity ⟨Community.typeBasic, beNat [a, b], beNat [x, y], 0⟩ comm)
  | _, comm => comm

/-- `community_add` -/
def communityAdd (buf : List UInt8) (comm : List Community) : Option (List Community) :=
  if buf.length = 0 ∨ buf.length % 4 ≠ 0 then none else some (addBasic buf comm)

/-- The loop of `community_large_add`. -/
def addLarge : ℕ → List UInt8 → List Community → List Community
  | 0, _, comm => comm
  | n + 1, buf, comm =>
    addLarge n (buf.drop 12) (Filter.insertCommunity ⟨Community.typeLarge, beNat (buf.take 4),
      beNat ((buf.drop 4).take 4), beNat ((buf.drop 8).take 4)⟩ comm)

/-- `community_large_add` -/
def communityLargeAdd (buf : List UInt8) (comm : List Community) : Option (List Community) :=
  if buf.length = 0 ∨ buf.length % 12 ≠ 0 then none else some (addLarge (buf.length / 12) buf comm)

/-- An extended community from its eight bytes. -/
def extCommunity (c : ℕ) : Community :=
  let value : ℤ := (c / 2 ^ 56 % 2 ^ 6 : ℕ)
  let (data1, data2) :=
    if value = Community.extTransFourAs ∨ value = Community.extTransIpv4 then
      (c / 2 ^ 16 % 2 ^ 32, c % 2 ^ 16)
    else (c / 2 ^ 32 % 2 ^ 16, c % 2 ^ 32)
  ⟨Community.typeExt, data1, data2, c / 2 ^ 48⟩

/-- The loop of `community_ext_add`. Non-transitive communities of ebgp peers are filtered out. -/
def addExt (ebgp : Bool) : ℕ → List UInt8 → List Community → List Community
  | 0, _, comm => comm
  | n + 1, buf, comm =>
    let c := beNat (buf.take 8)
    let nonTransitive : Bool := (c / 2 ^ 56).testBit 6
    addExt ebgp n (buf.drop 8)
      (if ebgp ∧ nonTransitive then comm else Filter.insertCommunity (extCommunity c) comm)

/-- `community_ext_add` -/
def communityExtAdd (ebgp : Bool) (buf : List UInt8) (comm : List Community) :
    Option (List Community) :=
  if buf.length = 0 ∨ buf.length % 8 ≠ 0 then none else some (addExt ebgp (buf.length / 8) buf comm)

/-- The three attributes of communities: a malformed one marks the update as bad. -/
def ParseState.communities (st : ParseState) (comm : Option (List Community)) : ParseState :=
  match comm with
  | none => st.setParseErr
  | some comm => { st with state := { st.state with communities := comm } }

/-! ## One attribute -/

/-- `bad_len` -/
def RawAttr.badLen (a : RawAttr) : UpdErr := ⟨.attrlen, a.bytes⟩

/-- `bad_flags` -/
def RawAttr.badFlags (a : RawAttr) : UpdErr := ⟨.attrflags, a.bytes⟩

/-- `bad_list`, and also `bad_ibuf` and `bad_size`. -/
def badList : UpdErr := ⟨.attrlist, []⟩

/-- `goto optattr` -/
def optattr (st : ParseState) (a : RawAttr) (data : List UInt8) : Except UpdErr ParseState :=
  match st.optadd a.flags a.type data with
  | none => .error badList
  | some st => .ok st

/-- Stop with an error under a condition. -/
def failIf (c : Prop) [Decidable c] (e : UpdErr) (rest : Except UpdErr ParseState) :
    Except UpdErr ParseState :=
  if c then .error e else rest

/-- `ATTR_OPTIONAL|ATTR_TRANSITIVE` -/
def optTransitive : UInt8 := attrOptional ||| attrTransitive

/-- `ATTR_ORIGIN` -/
def parseOrigin (st : ParseState) (a : RawAttr) : Except UpdErr ParseState :=
  failIf (!checkFlags a.flags attrWellKnown 0) a.badFlags <|
  failIf (a.data.length ≠ 1) a.badLen <|
  failIf (st.hasSeen seenOrigin) badList <|
    let st := (st.mapAspath fun x => { x with origin := beNat a.data }).setSeen seenOrigin
    -- ORIGIN_INCOMPLETE
    .ok (if 2 < beNat a.data then st.setParseErr else st)

/-- `ATTR_ASPATH`. Soft errors like unexpected segment types are not fatal, and the path is just
    marked invalid. -/
def parseAspath (peer : ParsePeer) (st : ParseState) (a : RawAttr) : Except UpdErr ParseState :=
  failIf (!checkFlags a.flags attrWellKnown 0) a.badFlags <|
  failIf (st.hasSeen seenAspath) badList <|
    let error := As4.aspathVerify a.data peer.as4byte peer.permitAsSet
    failIf (error.any (· ≠ .soft)) ⟨.aspath, []⟩ <|
      -- a path that was verified is never cut off
      let path := if peer.as4byte then a.data else (As4.aspathInflate a.data).getD []
      let st := if error.isSome then st.setParseErr else st
      .ok { st.setSeen seenAspath with path := path }

/-- `ATTR_NEXTHOP`. Multicast addresses are considered invalid. -/
def parseNexthop (st : ParseState) (a : RawAttr) : Except UpdErr ParseState :=
  failIf (!checkFlags a.flags attrWellKnown 0) a.badFlags <|
  failIf (a.data.length ≠ 4) a.badLen <|
  failIf (st.hasSeen seenNexthop) badList <|
  failIf (beNat a.data / 2 ^ 28 = 14) ⟨.nexthop, a.bytes⟩ <|
    let st := st.setSeen seenNexthop
    .ok { st with
      state := { st.state with nexthop := some { aid := some .inet, addr := beNat a.data } } }

/-- `ATTR_MED` -/
def parseMed (st : ParseState) (a : RawAttr) : Except UpdErr ParseState :=
  failIf (!checkFlags a.flags attrOptional 0) a.badFlags <|
  failIf (a.data.length ≠ 4) a.badLen <|
  failIf st.flags.attrMed badList <|
    .ok (st.mapAspath fun x =>
      { x with med := beNat a.data, flags := { x.flags with attrMed := true } })

/-- `ATTR_LOCALPREF`, which is ignored on non ibgp peers. -/
def parseLocalpref (peer : ParsePeer) (st : ParseState) (a : RawAttr) : Except UpdErr ParseState :=
  failIf (!checkFlags a.flags attrWellKnown 0) a.badFlags <|
  failIf (a.data.length ≠ 4) a.badLen <|
    if peer.ebgp then .ok st
    else failIf (st.hasSeen seenLocalpref) badList <|
      .ok ((st.mapAspath fun x => { x with lpref := beNat a.data }).setSeen seenLocalpref)

/-- `ATTR_ATOMIC_AGGREGATE` -/
def parseAtomicAggregate (st : ParseState) (a : RawAttr) : Except UpdErr ParseState :=
  failIf (!checkFlags a.flags attrWellKnown 0) a.badFlags <|
  failIf (a.data.length ≠ 0) a.badLen <| optattr st a a.data

/-- `ATTR_AGGREGATOR`: discarded in case of error as per RFC 7606. -/
def parseAggregator (peer : ParsePeer) (st : ParseState) (a : RawAttr) :
    Except UpdErr ParseState :=
  failIf (!checkFlags a.flags optTransitive attrPartial) a.badFlags <|
    if a.data.length ≠ (if peer.as4byte then 8 else 6) then .ok st
    else
      -- need to inflate aggregator AS to 4-byte
      let data := if peer.as4byte then a.data else 0 :: 0 :: a.data
      if beNat (data.take 4) = 0 then .ok st else optattr st a data

/-- `ATTR_COMMUNITIES`, `ATTR_LARGE_COMMUNITIES` and `ATTR_EXT_COMMUNITIES` -/
def parseCommunities (add : List UInt8 → List Community → Option (List Community))
    (st : ParseState) (a : RawAttr) : Except UpdErr ParseState :=
  failIf (!checkFlags a.flags optTransitive attrPartial) a.badFlags <|
    .ok (st.communities (add a.data st.state.communities))

/-- `ATTR_ORIGINATOR_ID` -/
def parseOriginatorId (st : ParseState) (a : RawAttr) : Except UpdErr ParseState :=
  failIf (!checkFlags a.flags attrOptional 0) a.badFlags <|
  failIf (a.data.length ≠ 4) a.badLen <| optattr st a a.data

/-- `ATTR_CLUSTER_LIST`: from an external peer it is discarded as per RFC 7606. -/
def parseClusterList (peer : ParsePeer) (st : ParseState) (a : RawAttr) :
    Except UpdErr ParseState :=
  failIf (!checkFlags a.flags attrOptional 0) a.badFlags <|
    if peer.ebgp then .ok st
    else if a.data.length % 4 ≠ 0 ∨ a.data.length = 0 then .ok st.setParseErr
    else optattr st a a.data

/-- `ATTR_MP_REACH_NLRI`. The validity is checked in `rde_update_dispatch`. -/
def parseMpReach (st : ParseState) (a : RawAttr) : Except UpdErr ParseState :=
  failIf (!checkFlags a.flags attrOptional 0) a.badFlags <|
  failIf (a.data.length < 5) a.badLen <|
  failIf (st.hasSeen seenMpReach) badList <|
    .ok { st.setSeen seenMpReach with reach := some a }

/-- `ATTR_MP_UNREACH_NLRI` -/
def parseMpUnreach (st : ParseState) (a : RawAttr) : Except UpdErr ParseState :=
  failIf (!checkFlags a.flags attrOptional 0) a.badFlags <|
  failIf (a.data.length < 3) a.badLen <|
  failIf (st.hasSeen seenMpUnreach) badList <|
    .ok { st.setSeen seenMpUnreach with unreach := some a }

/-- `ATTR_AS4_AGGREGATOR`: discarded in case of error. -/
def parseAs4Aggregator (st : ParseState) (a : RawAttr) : Except UpdErr ParseState :=
  failIf (!checkFlags a.flags optTransitive attrPartial) a.badFlags <|
    if a.data.length ≠ 8 then .ok st
    else if beNat (a.data.take 4) = 0 then .ok st
    else optattr (st.setSeen seenAs4byteNew) a a.data

/-- `ATTR_AS4_PATH`: discarded in case of error. -/
def parseAs4Path (peer : ParsePeer) (st : ParseState) (a : RawAttr) : Except UpdErr ParseState :=
  failIf (!checkFlags a.flags optTransitive attrPartial) a.badFlags <|
    if (As4.aspathVerify a.data true peer.permitAsSet).isSome then .ok st
    else optattr (st.setSeen seenAs4byteNew) a a.data

/-- Is an OTC attribute with this value a leak? -/
def otcIsLeak (role : Role) (remoteAs value : ℕ) : Bool :=
  match role with
  | .provider | .rs => true
  | .peer => value ≠ remoteAs
  | .none | .customer | .rsClient => false

/-- `ATTR_OTC`: treat-as-withdraw in case of error. -/
def parseOtc (peer : ParsePeer) (st : ParseState) (a : RawAttr) : Except UpdErr ParseState :=
  failIf (!checkFlags a.flags optTransitive attrPartial) a.badFlags <|
    if a.data.length ≠ 4 then .ok st.setParseErr
    else
      let leak := otcIsLeak peer.role peer.remoteAs (beNat a.data)
      optattr (st.mapFlags fun f => { f with otcLeak := f.otcLeak || leak, otc := true }) a a.data

/-- The attributes that are not known: well-known ones are an error. -/
def parseOther (st : ParseState) (a : RawAttr) : Except UpdErr ParseState :=
  failIf (a.flags &&& attrOptional = 0) ⟨.unknwnWkAttr, a.bytes⟩ <| optattr st a a.data

/-- `rde_attr_parse`, behind the header. -/
def rdeAttrParse (peer : ParsePeer) (st : ParseState) (a : RawAttr) : Except UpdErr ParseState :=
  match AttrType.ofByte a.type with
  -- ignore and drop path attributes with a type code of 0
  | .undef => .ok st
  | .origin => parseOrigin st a
  | .aspath => parseAspath peer st a
  | .nexthop => parseNexthop st a
  | .med => parseMed st a
  | .localpref => parseLocalpref peer st a
  | .atomicAggregate => parseAtomicAggregate st a
  | .aggregator => parseAggregator peer st a
  | .communities => parseCommunities communityAdd st a
  | .largeCommunities => parseCommunities communityLargeAdd st a
  | .extCommunities => parseCommunities (communityExtAdd peer.ebgp) st a
  | .originatorId => parseOriginatorId st a
  | .clusterList => parseClusterList peer st a
  | .mpReach => parseMpReach st a
  | .mpUnreach => parseMpUnreach st a
  | .as4Aggregator => parseAs4Aggregator st a
  | .as4Path => parseAs4Path peer st a
  | .otc => parseOtc peer st a
  | .other => parseOther st a

/-! ## All attributes -/

/-- The loop over the attributes in `rde_update_dispatch`, with the attributes that were read. Every
    attribute has a header, so that the length of the buffer is enough fuel. -/
def attrLoop (peer : ParsePeer) :
    ℕ → List UInt8 → List RawAttr → ParseState → Except UpdErr (List RawAttr × ParseState)
  | _, [], as, st => .ok (as, st)
  | 0, _ :: _, _, _ => .error badList
  | n + 1, buf, as, st =>
    match getAttr buf with
    | none => .error badList
    | some (a, buf) => do
      let st ← rdeAttrParse peer st a
      attrLoop peer n buf (as ++ [a]) st

/-- `attr_free` of the attribute with a type. -/
def attrFree (type : ℕ) (others : List Attr) : List Attr := others.filter (·.type ≠ type)

/-- `ATTR_AGGREGATOR`, `ATTR_AS4_PATH` and `ATTR_AS4_AGGREGATOR` -/
def attrAggregator : ℕ := 7
def attrAs4Path : ℕ := 17
def attrAs4Aggregator : ℕ := 18

/-- The last part of `rde_as4byte_fixup`: merge `AS4_PATH` with `ASPATH`. `aspath_merge` frees the
    attribute unless it fails. -/
def mergeAs4Path (st : ParseState) (nasp : Option Attr) : ParseState :=
  match nasp with
  | none => st
  | some a =>
    match As4.aspathMerge st.path (a.data.map UInt8.ofNat) with
    | none => st.setParseErr
    | some path =>
      { st.setOthers (attrFree attrAs4Path st.state.aspath.others) with path := path }

/-- `rde_as4byte_fixup` -/
def rdeAs4byteFixup (peer : ParsePeer) (st : ParseState) : ParseState :=
  let others := st.state.aspath.others
  if !st.hasSeen seenAs4byteNew ∨ !st.hasSeen seenAspath ∨ st.flags.parseErr then st
  -- NEW session using 4-byte ASNs
  else if peer.as4byte then
    st.setOthers (attrFree attrAs4Aggregator (attrFree attrAs4Path others))
  else
    -- OLD session using 2-byte ASNs, try to merge the new attributes into the old ones
    let nasp := attrOptget others attrAs4Path
    match attrOptget others attrAggregator, attrOptget others attrAs4Aggregator with
    | some oaggr, naggr =>
      -- per RFC ignore AS4_PATH and AS4_AGGREGATOR
      if be32 oaggr.data ≠ As4.asTrans.toNat then
        st.setOthers (attrFree attrAs4Aggregator (attrFree attrAs4Path others))
      else
        match naggr with
        | some naggr =>
          -- switch over to new AGGREGATOR
          let others :=
            attrOptadd ⟨0xc0, attrAggregator, naggr.data⟩ (attrFree attrAggregator others)
          mergeAs4Path (st.setOthers (attrFree attrAs4Aggregator others)) nasp
        | none => mergeAs4Path st nasp
    | none, _ => mergeAs4Path (st.setOthers (attrFree attrAs4Aggregator others)) nasp

/-- The path would cause a route loop. -/
def ParseState.setLoop (st : ParseState) : ParseState :=
  st.mapFlags fun f => { f with loop := true }

/-- The cluster list of `rde_reflector`, with the id of the own cluster in front. -/
def reflectorCluster (clusterid : ℕ) (st : ParseState) : ParseState :=
  let others := st.state.aspath.others
  let id := toBe32 clusterid
  match attrOptget others attrClusterList with
  | some a =>
    -- check if coming from my cluster
    if (List.range (a.data.length / 4)).any fun i => (a.data.drop (4 * i)).take 4 = id
      then st.setLoop
    else
      st.setOthers
        (attrOptadd ⟨0x80, attrClusterList, id ++ a.data⟩ (attrFree attrClusterList others))
  | none => st.setOthers (attrOptadd ⟨0x80, attrClusterList, id⟩ others)

/-- `rde_reflector` -/
def rdeReflector (conf : ParseConf) (peer : ParsePeer) (st : ParseState) : ParseState :=
  let others := st.state.aspath.others
  let cluster := fun st => if conf.reflector then reflectorCluster conf.clusterid st else st
  -- do not consider updates with parse errors
  if st.flags.parseErr then st
  else
    match attrOptget others attrOriginatorId with
    | some a =>
      -- this is coming from myself
      if a.data.take 4 = toBe32 conf.bgpid then st.setLoop else cluster st
    | none =>
      if conf.reflector then
        let id := toBe32 (if peer.ebgp then conf.bgpid else peer.remoteBgpid)
        cluster (st.setOthers (attrOptadd ⟨0x80, attrOriginatorId, id⟩ others))
      else st

end Bgpd.Rde.Parse
