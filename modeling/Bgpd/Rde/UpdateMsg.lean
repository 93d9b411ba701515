import Bgpd.Rde.AttrParse

/-!
# UPDATE Messages from the Pending Queues

Model of the last part of `rde_update.c`: `up_generate_attr`, `up_generate_mp_reach`,
`up_dump_withdraws` and `up_dump_update`, with `attr_writebuf` and `community_writebuf`. They
take prefixes off the queues of a peer and write them to a buffer of limited size.

A buffer is the list of the bytes behind the imsg header. Functions that return -1 if there is no
space return `none`. The log, the statistics and failed allocations are left out.

## Layout

- `attrWritebuf`, `communityWritebuf`: one attribute
- `upGenerateAttr`: all attributes
- `upDumpPrefix`: prefixes of a queue
- `upDumpWithdraws`, `upDumpUpdate`: messages
-/

namespace Bgpd.Rde.Msg

open Nlri
open Parse (attrExtlen attrPartial attrTransitive attrOptional attrWellKnown attrDefmask)

/-! ## Buffers -/

/-- `ibuf_add` to a buffer that may grow to `max` bytes. -/
def ibufAdd (max : ℕ) (data buf : List UInt8) : Option (List UInt8) :=
  if max < buf.length + data.length then none else some (buf ++ data)

/-- `ibuf_add_zero` -/
def ibufAddZero (max len : ℕ) (buf : List UInt8) : Option (List UInt8) :=
  ibufAdd max (List.replicate len 0) buf

/-- A number as `n` bytes in network byte order. -/
def beBytes : ℕ → ℕ → List UInt8
  | 0, _ => []
  | n + 1, value => beBytes n (value / 256) ++ [UInt8.ofNat value]

/-- `ibuf_add_n16`, also of values that do not fit. -/
def ibufAddN16 (max value : ℕ) (buf : List UInt8) : Option (List UInt8) :=
  if 65535 < value then none else ibufAdd max (beBytes 2 value) buf

/-- `ibuf_set_n8` and `ibuf_set_n16` of bytes that were added before. -/
def ibufSet (pos : ℕ) (data buf : List UInt8) : List UInt8 :=
  buf.take pos ++ data ++ buf.drop (pos + data.length)

/-! ## One attribute -/

/-- The header that `attr_writebuf` writes. -/
def attrHeader (flags type : UInt8) (len : ℕ) : List UInt8 :=
  let flags := flags &&& ~~~attrDefmask
  if 255 < len then (flags ||| attrExtlen) :: type :: beBytes 2 len
  else [flags, type, UInt8.ofNat len]

/-- `attr_writebuf` -/
def attrWritebuf (max : ℕ) (flags type : UInt8) (data buf : List UInt8) : Option (List UInt8) :=
  (ibufAdd max (attrHeader flags type data.length) buf).bind (ibufAdd max data)

/-- `struct rde_community`, with its partial flags. -/
structure RdeCommunity where
  communities : List Community := []
  partialBasic : Bool := false
  partialExt : Bool := false
  partialLarge : Bool := false
  deriving DecidableEq, Repr

/-- `non_transitive_ext_community` -/
def nonTransitive (c : Community) : Bool :=
  c.type = Community.typeExt ∧ (c.data3 / 256).testBit 6

/-- The eight bytes of an extended community. -/
def extBytes (c : Community) : List UInt8 :=
  let value : ℤ := (c.data3 / 256 % 64 : ℕ)
  beBytes 8 <| c.data3 % 2 ^ 16 * 2 ^ 48 +
    if value = Community.extTransFourAs ∨ value = Community.extTransIpv4 then
      c.data1 % 2 ^ 32 * 2 ^ 16 + c.data2 % 2 ^ 16
    else c.data1 % 2 ^ 16 * 2 ^ 32 + c.data2 % 2 ^ 32

/-- The bytes of a community in the attribute of a type. -/
def communityBytes (t : ℕ) (c : Community) : Option (List UInt8) :=
  if t = Community.typeBasic then
    if 65535 < c.data1 ∨ 65535 < c.data2 then none
    else some (beBytes 2 c.data1 ++ beBytes 2 c.data2)
  else if t = Community.typeExt then some (extBytes c)
  else some (beBytes 4 c.data1 ++ beBytes 4 c.data2 ++ beBytes 4 c.data3)

/-- The communities that `community_writebuf` writes: from the first one of the type up to where
    the larger types begin. -/
def communitiesOf (t : ℕ) (ebgp : Bool) (comm : List Community) : List Community :=
  ((comm.takeWhile fun c => c.type ≤ t).dropWhile fun c =>
    c.type ≠ t ∨ ebgp ∧ nonTransitive c).filter fun c =>
      ¬(t = Community.typeExt ∧ ebgp ∧ nonTransitive c)

/-- `community_writebuf` for the communities of type `t` in `size` bytes each. -/
def communityWritebuf (max : ℕ) (type : UInt8) (t size : ℕ) (isPartial ebgp : Bool)
    (comm : List Community) (buf : List UInt8) : Option (List UInt8) := do
  let flags := attrOptional ||| attrTransitive ||| if isPartial then attrPartial else 0
  let cs := communitiesOf t ebgp comm
  -- no communities for this type present
  if cs.length = 0 then return buf
  if 32767 / size < cs.length then none
  let data ← cs.mapM (communityBytes t)
  attrWritebuf max flags type data.flatten buf

/-! ## All attributes -/

/-- What is read of the peer. -/
structure MsgPeer where
  as4byte : Bool := true
  extMsg : Bool := false
  ebgp : Bool := true
  /-- `PEERFLAG_TRANS_AS` -/
  transAs : Bool := false
  extNh : Aid → Bool := fun _ => false
  /-- `capa.add_path` with `CAPA_AP_SEND` -/
  addPathSend : Aid → Bool := fun _ => false

/-- `struct adjout_attr` -/
structure MsgAttrs where
  aspath : RdeAspath
  communities : RdeCommunity := {}
  /-- `nexthop->exit_nexthop` -/
  nexthop : Option BgpdAddr := none
  deriving DecidableEq, Repr

/-- The byte of a segment type. -/
def segByte : SegType → UInt8
  | .asSet => As4.asSet
  | .asSequence => As4.asSequence
  | .asConfedSequence => As4.asConfedSequence
  | .asConfedSet => As4.asConfedSet

/-- `aspath_dump` -/
def aspathDump (path : Aspath) : List UInt8 :=
  path.flatMap fun s =>
    segByte s.type :: UInt8.ofNat s.ases.length :: s.ases.flatMap fun as => beBytes 4 as

/-- The bytes of an attribute. -/
def attrData (a : Attr) : List UInt8 := a.data.map UInt8.ofNat

/-- The variables of `up_generate_attr` that one attribute leaves to the next ones. -/
structure AttrWriter where
  buf : List UInt8
  neednewpath : Bool := false
  newaggr : Option Attr := none

/-- `ATTR_OPTIONAL|ATTR_TRANSITIVE`, and `ATTR_PARTIAL` if the prefix is not announced by us. -/
def as4Flags (announced : Bool) : UInt8 :=
  attrOptional ||| attrTransitive ||| if announced then 0 else attrPartial

/-- `ATTR_FIRST_UNKNOWN` -/
def attrFirstUnknown : ℕ := 36

section

variable (max : ℕ) (peer : MsgPeer) (a : MsgAttrs) (aid : Aid)

/-- An attribute is written and nothing else changes. -/
def AttrWriter.attr (w : AttrWriter) (flags type : UInt8) (data : List UInt8) :
    Option AttrWriter :=
  (attrWritebuf max flags type data w.buf).map fun buf => { w with buf := buf }

/-- `ATTR_ASPATH` -/
def writeAspath (w : AttrWriter) : Option AttrWriter :=
  let pdata := aspathDump a.aspath.aspath
  -- the segments of a path are not cut off
  let (pdata, neednewpath) :=
    if peer.as4byte then (pdata, false) else (As4.aspathDeflate pdata).getD ([], false)
  { w with neednewpath := neednewpath }.attr max attrWellKnown 2 pdata

/-- `ATTR_NEXTHOP` -/
def writeNexthop (w : AttrWriter) : Option AttrWriter :=
  if aid ≠ .inet then some w
  else do
    let nh ← a.nexthop
    if nh.aid ≠ some .inet then
      if peer.extNh aid then return w else none
    w.attr max attrWellKnown 3 (beBytes 4 nh.addr)

/-- `ATTR_MED` -/
def writeMed (w : AttrWriter) : Option AttrWriter :=
  if a.aspath.flags.attrMed ∧ (!peer.ebgp ∨ a.aspath.flags.medAnnounce ∨ peer.transAs) then
    w.attr max attrOptional 4 (beBytes 4 a.aspath.med)
  else some w

/-- `ATTR_LOCALPREF` -/
def writeLocalpref (w : AttrWriter) : Option AttrWriter :=
  if !peer.ebgp then w.attr max attrWellKnown 5 (beBytes 4 a.aspath.lpref) else some w

/-- `ATTR_COMMUNITIES`, `ATTR_EXT_COMMUNITIES` and `ATTR_LARGE_COMMUNITIES` -/
def writeCommunities (type : UInt8) (t size : ℕ) (isPartial : Bool) (w : AttrWriter) :
    Option AttrWriter :=
  (communityWritebuf max type t size isPartial peer.ebgp a.communities.communities w.buf).map
    fun buf => { w with buf := buf }

/-- `ATTR_AS4_PATH` -/
def writeAs4Path (w : AttrWriter) : Option AttrWriter :=
  let pdata := aspathDump a.aspath.aspath
  if w.neednewpath ∧ pdata.length ≠ 0 then
    w.attr max (as4Flags a.aspath.flags.announced) 17 pdata
  else some w

/-- `ATTR_AS4_AGGREGATOR` -/
def writeAs4Aggregator (w : AttrWriter) : Option AttrWriter :=
  match w.newaggr with
  | some newaggr => w.attr max (as4Flags a.aspath.flags.announced) 18 (attrData newaggr)
  | none => some w

/-- `ATTR_AGGREGATOR`, for an attribute of this type. -/
def writeAggregator (oa : Attr) (w : AttrWriter) : Option AttrWriter :=
  let flags := UInt8.ofNat oa.flags
  let data := attrData oa
  if flags &&& attrTransitive = 0 ∧ peer.ebgp then some w
  else if peer.as4byte then w.attr max flags 7 data
  else
    -- need to deflate the aggregator
    let as := be32 oa.data
    let new := 65535 < as
    { w with newaggr := if new then some oa else w.newaggr }.attr max flags 7
      (beBytes 2 (if new then As4.asTrans.toNat else as) ++ (data.drop 4).take 4)

/-- `ATTR_ORIGINATOR_ID`, `ATTR_CLUSTER_LIST` and `ATTR_OTC`, for an attribute of this type. -/
def writeKnown (oa : Attr) (w : AttrWriter) : Option AttrWriter :=
  if UInt8.ofNat oa.flags &&& attrTransitive = 0 ∧ peer.ebgp then some w
  else w.attr max (UInt8.ofNat oa.flags) (UInt8.ofNat oa.type) (attrData oa)

/-- An unknown attribute. One that is not transitive is not passed along. -/
def writeUnknown (oa : Attr) (w : AttrWriter) : Option AttrWriter :=
  if UInt8.ofNat oa.flags &&& attrTransitive = 0 then some w
  else w.attr max (UInt8.ofNat oa.flags ||| attrPartial) (UInt8.ofNat oa.type) (attrData oa)

/-- The switch of `up_generate_attr`. `oa` is the attribute of the type, if there is one. -/
def writeType (type : ℕ) (oa : Option Attr) (w : AttrWriter) : Option AttrWriter :=
  match Parse.AttrType.ofByte (UInt8.ofNat type) with
  | .origin => w.attr max attrWellKnown 1 [UInt8.ofNat a.aspath.origin]
  | .aspath => writeAspath max peer a w
  | .nexthop => writeNexthop max peer a aid w
  | .med => writeMed max peer a w
  | .localpref => writeLocalpref max peer a w
  | .communities => writeCommunities max peer a 8 Community.typeBasic 4 a.communities.partialBasic w
  | .extCommunities => writeCommunities max peer a 16 Community.typeExt 8 a.communities.partialExt w
  | .largeCommunities =>
    writeCommunities max peer a 32 Community.typeLarge 12 a.communities.partialLarge w
  | .as4Path => writeAs4Path max a w
  | .as4Aggregator => writeAs4Aggregator max a w
  -- multiprotocol attributes are handled elsewhere
  | .mpReach | .mpUnreach => some w
  | .atomicAggregate => oa.elim (some w) fun _ => w.attr max attrWellKnown 6 []
  | .aggregator => oa.elim (some w) fun oa => writeAggregator max peer oa w
  | .originatorId | .clusterList | .otc => oa.elim (some w) fun oa => writeKnown max peer oa w
  | .undef | .other => oa.elim (some w) fun oa => writeUnknown max oa w

/-- The loop of `up_generate_attr` over the types up to 254, of which `n` are left, and the other
    attributes, which are sorted. -/
def attrLoop : ℕ → List Attr → AttrWriter → Option AttrWriter
  | 0, _, w => some w
  | n + 1, others, w =>
    let type := 254 - n
    let others := others.dropWhile fun oa => oa.type < type
    -- there is no attribute left to dump
    if others = [] ∧ attrFirstUnknown ≤ type then some w
    else
      (writeType max peer a aid type (others.head?.filter fun oa => oa.type = type) w).bind
        (attrLoop n others)

/-- `up_generate_attr` -/
def upGenerateAttr (buf : List UInt8) : Option (List UInt8) :=
  (attrLoop max peer a aid 254 a.aspath.others { buf := buf }).map (·.buf)

end

/-! ## Queues -/

/-- `struct pend_prefix` -/
structure PendPrefix where
  pt : Nlri.PtEntry
  pathIdTx : UInt32
  deriving DecidableEq

/-- `struct pend_attr` with its prefixes, of which there is at least one: it is freed with the
    last one. -/
structure PendAttr where
  attrs : MsgAttrs
  head : PendPrefix
  tail : List PendPrefix := []
  deriving DecidableEq

def PendAttr.prefixes (pa : PendAttr) : List PendPrefix := pa.head :: pa.tail

/-- `pend_attr_done` for the first element of `peer->updates[aid]`, where `rest` is what is left of
    its prefixes. `none` in the queue is an End-of-RIB marker. -/
def pendAttrDone (attrs : MsgAttrs) (rest : List PendPrefix) (us : List (Option PendAttr)) :
    List (Option PendAttr) :=
  match rest with
  | [] => us
  | p :: ps => some ⟨attrs, p, ps⟩ :: us

/-- The loop of `up_dump_prefix`: the buffer and what is left of the queue. -/
def dumpPrefixLoop (max : ℕ) (withdraw hasAp : Bool) :
    List PendPrefix → List UInt8 → List UInt8 × List PendPrefix
  | [], buf => (buf, [])
  | p :: ps, buf =>
    match ptWritebuf buf max p.pt withdraw hasAp p.pathIdTx with
    | none => (buf, p :: ps)
    | some buf => dumpPrefixLoop max withdraw hasAp ps buf

/-- `up_dump_prefix`; `none` if no prefix was written. -/
def upDumpPrefix (max : ℕ) (peer : MsgPeer) (withdraw : Bool) (ps : List PendPrefix)
    (buf : List UInt8) : Option (List UInt8 × List PendPrefix) :=
  match ps with
  | [] => none
  | p :: rest =>
    let hasAp := peer.addPathSend p.pt.aid
    (ptWritebuf buf max p.pt withdraw hasAp p.pathIdTx).map
      (dumpPrefixLoop max withdraw hasAp rest)

/-! ## Messages -/

/-- The AFI and SAFI of `aid_vals`. -/
def aid2afi : Aid → ℕ × ℕ
  | .inet => (1, 1)
  | .inet6 => (2, 1)
  | .vpn4 => (1, 128)
  | .vpn6 => (2, 128)
  | .flowspec4 => (1, 133)
  | .flowspec6 => (2, 133)
  | .evpn => (25, 70)

/-- `MAX_PKTSIZE` or `MAX_EXT_PKTSIZE`, less `MSGSIZE_HEADER`. -/
def maxBody (peer : MsgPeer) : ℕ := (if peer.extMsg then 65535 else 4096) - 19

/-- `nexthop->v6`, of the union. -/
def nexthopV6 (nh : BgpdAddr) : List UInt8 :=
  if nh.aid = some .inet then beBytes 4 nh.addr ++ List.replicate 12 0 else beBytes 16 nh.addr

/-- The nexthop in `up_generate_mp_reach`, behind the RD of the VPN families. `none` is a nexthop
    that can not be encoded. -/
def mpNexthop (peer : MsgPeer) (aid : Aid) (nexthop : Option BgpdAddr) : Option (List UInt8) :=
  match aid with
  | .inet | .vpn4 => do
    let nh ← nexthop
    if nh.aid = some .inet ∧ aid ≠ .inet then return beBytes 4 nh.addr
    else if nh.aid = some .inet6 ∧ peer.extNh aid then return nexthopV6 nh
    else none
  | .inet6 | .vpn6 => nexthop.map nexthopV6
  | .evpn => do
    let nh ← nexthop
    if nh.aid = some .inet then return beBytes 4 nh.addr
    else if nh.aid = some .inet6 then return nexthopV6 nh
    else none
  | .flowspec4 | .flowspec6 => some []

/-- `up_generate_mp_reach`, with what is left of the prefixes. -/
def upGenerateMpReach (max : ℕ) (peer : MsgPeer) (pa : PendAttr) (aid : Aid) (buf : List UInt8) :
    Option (List UInt8 × List PendPrefix) := do
  -- attribute header, defaulting to extended length one
  let buf ← ibufAdd max [attrOptional ||| attrExtlen, 14] buf
  let off := buf.length
  let buf ← ibufAddZero max 2 buf
  let buf ← ibufAddN16 max (aid2afi aid).1 buf
  let buf ← ibufAdd max [UInt8.ofNat (aid2afi aid).2] buf
  let nhoff := buf.length
  let buf ← ibufAddZero max 1 buf
  -- write zero rd
  let buf ← ibufAddZero max (if aid = .vpn4 ∨ aid = .vpn6 then 8 else 0) buf
  let nexthop ← mpNexthop peer aid pa.attrs.nexthop
  let buf ← ibufAdd max nexthop buf
  -- update nexthop len
  let buf := ibufSet nhoff [UInt8.ofNat (buf.length - nhoff - 1)] buf
  let buf ← ibufAddZero max 1 buf
  -- no prefixes written, fail update
  let (buf, rest) ← upDumpPrefix max peer false pa.prefixes buf
  -- update MP_REACH attribute length field
  return (ibufSet off (beBytes 2 (buf.length - off - 2)) buf, rest)

/-- The start of a message with withdraws, up to the prefixes. -/
def withdrawStart (max : ℕ) (aid : Aid) : Option (List UInt8) := do
  let buf ← ibufAddZero max 2 []
  if aid = .inet then return buf
  let buf ← ibufAddZero max 2 buf
  let buf ← ibufAdd max [attrOptional ||| attrExtlen, 15] buf
  let buf ← ibufAddZero max 2 buf
  let buf ← ibufAddN16 max (aid2afi aid).1 buf
  ibufAdd max [UInt8.ofNat (aid2afi aid).2] buf

/-- The length fields behind the prefixes of a message with withdraws. -/
def withdrawEnd (max : ℕ) (aid : Aid) (buf : List UInt8) : Option (List UInt8) :=
  if aid = .inet then
    -- no extra attributes so set attribute len to 0
    ibufAddZero max 2 (ibufSet 0 (beBytes 2 (buf.length - 2)) buf)
  else
    let len := buf.length - 2 - 2
    some (ibufSet 6 (beBytes 2 (len - 4)) (ibufSet 2 (beBytes 2 len) buf))

/-- `up_dump_withdraws`: the message that is sent, if any, and `peer->withdraws[aid]`. -/
def upDumpWithdraws (peer : MsgPeer) (aid : Aid) (ps : List PendPrefix) :
    Option (List UInt8) × List PendPrefix :=
  let max := maxBody peer
  match (withdrawStart max aid).bind (upDumpPrefix max peer true ps) with
  | none => (none, ps)
  | some (buf, rest) => (withdrawEnd max aid buf, rest)

/-- `up_dump_withdraw_one` -/
def upDumpWithdrawOne (peer : MsgPeer) (p : PendPrefix) : Option (List UInt8) := do
  let max := maxBody peer
  let buf ← withdrawStart max p.pt.aid
  let buf ← ptWritebuf buf max p.pt true (peer.addPathSend p.pt.aid) p.pathIdTx
  withdrawEnd max p.pt.aid buf

/-- `force_ip4mp` -/
def forceIp4mp (peer : MsgPeer) (aid : Aid) (nexthop : Option BgpdAddr) : Bool :=
  aid = .inet ∧ peer.extNh .inet ∧ nexthop.any fun nh => nh.aid = some .inet6

/-- `up_dump_update` up to `drop`, with what is left of the prefixes. -/
def dumpUpdate (peer : MsgPeer) (aid : Aid) (pa : PendAttr) :
    Option (List UInt8 × List PendPrefix) := do
  let max := maxBody peer
  -- withdrawn routes length field is 0
  let buf ← ibufAddZero max 2 []
  -- reserve space for 2-byte path attribute length
  let buf ← ibufAddZero max 2 buf
  let buf ← upGenerateAttr max peer pa.attrs aid buf
  if aid ≠ .inet ∨ forceIp4mp peer aid pa.attrs.nexthop then
    -- write mp attribute including nlri
    let (buf, rest) ← upGenerateMpReach max peer pa aid buf
    return (ibufSet 2 (beBytes 2 (buf.length - 2 - 2)) buf, rest)
  else
    -- last but not least dump the IPv4 nlri
    upDumpPrefix max peer false pa.prefixes (ibufSet 2 (beBytes 2 (buf.length - 2 - 2)) buf)

/-- `up_dump_update`: the message that is sent, if any, and `peer->updates[aid]`. End-of-RIB
    markers are taken off the queue by `up_is_eor` before. -/
def upDumpUpdate (peer : MsgPeer) (aid : Aid) (us : List (Option PendAttr)) :
    Option (List UInt8) × List (Option PendAttr) :=
  match us with
  | some pa :: rest =>
    match dumpUpdate peer aid pa with
    | some (buf, ps) => (some buf, pendAttrDone pa.attrs ps rest)
    | none =>
      -- not enough space, drop current prefix, it will never fit
      match upDumpWithdrawOne peer pa.head with
      | some buf => (some buf, pendAttrDone pa.attrs pa.tail rest)
      | none => (none, us)
  | _ => (none, us)

end Bgpd.Rde.Msg
