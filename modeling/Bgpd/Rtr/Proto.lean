import Bgpd.Rde.As4Path
import Bgpd.Rtr.Session

/-!
# PDUs from a Cache

Model of the parser in `rtr_proto.c`: `rtr_parse_header`, the functions for each type of PDU, and
`rtr_process_msg`. A PDU that is not accepted raises an error, which puts the session into its error
state and resets its cache; the PDUs that were read with it are still handled.

Allocations do not fail.

## Layout

- `rtrParseHeader`: versions and lengths
- `rtrParseNotify` to `rtrParseError`: the types of PDUs
- `rtrProcessMsg`
-/

namespace Bgpd.Rtr

open Lib
open Rde.Nlri (ibufGetN8 ibufGetN32)
open Rpki (AnyRoa roaCmp)

/-- A PDU raises an error. -/
def Cur.reject (c : Cur) (err : RtrError) (pdu : Pdu) : Cur := c.sendError err pdu.bytes

/-! ## The header -/

/-- Both error codes lead to another version. -/
def downgrades (errcode : ℕ) : Bool :=
  -- UNSUPP_PROTOCOL_VERS and NO_DATA_AVAILABLE
  errcode = 4 ∨ errcode = 2

/-- Implicit downgrade. -/
def Session.downgrade (rs : Session) (pdu : Pdu) : Session :=
  if pdu.version.toNat < rs.version then
    { rs with prevVersion := rs.version, version := pdu.version.toNat }
  else rs

/-- The first part of `rtr_parse_header`: the session, and an error or whether the negotiation is
    done. -/
def checkVersion (rs : Session) (pdu : Pdu) : Session × Except RtrError Bool :=
  if rs.state = .negotiation then
    match pdu.type with
    | .cacheResponse | .cacheReset =>
      if pdu.version.toNat < rs.version ∧ pdu.version.toNat < rs.minVersion then
        (rs, .error .unexpProtocolVers)
      else (rs.downgrade pdu, .ok true)
    | .errorReport =>
      (if downgrades pdu.sessionId.toNat then rs.downgrade pdu else rs, .ok false)
    | .serialNotify => (rs, .ok false)
    | _ => (rs, .error .corruptData)
  else if pdu.version.toNat ≠ rs.version ∧ pdu.type ≠ .errorReport then
    (rs, .error .unexpProtocolVers)
  else (rs, .ok false)

/-- The second part of `rtr_parse_header`: the length without the header. -/
def checkLength (version : ℕ) (pdu : Pdu) : Option RtrError :=
  let len := pdu.body.length
  match pdu.type with
  | .serialNotify => if len ≠ 4 then some .corruptData else none
  | .cacheResponse | .cacheReset => if len ≠ 0 then some .corruptData else none
  | .ipv4Prefix => if len ≠ 12 then some .corruptData else none
  | .ipv6Prefix => if len ≠ 24 then some .corruptData else none
  | .endOfData => if len ≠ (if version = 0 then 4 else 16) then some .corruptData else none
  | .routerKey =>
    if version < 1 then some .unexpProtocolVers
    else if len < 24 then some .corruptData
    else none
  | .errorReport => if len < 8 then some .corruptData else none
  | .aspa =>
    if version < 2 then some .unexpProtocolVers
    else if len < 4 ∨ (8 + len) % 4 ≠ 0 then some .corruptData
    else none
  | .serialQuery | .resetQuery | .unknown => some .unsuppPduType

/-- `rtr_parse_header`, and whether the PDU is handled further. -/
def rtrParseHeader (c : Cur) (pdu : Pdu) : Cur × Bool :=
  match checkVersion c.rs pdu with
  | (_, .error err) => (c.reject err pdu, false)
  | (rs, .ok negDone) =>
    let c := { c with rs := rs }
    match checkLength rs.version pdu with
    | some err => (c.reject err pdu, false)
    | none => (if negDone then c.modify fun rs => { rs with state := .established } else c, true)

/-! ## Sessions and serials -/

/-- Set `session_id` if not yet happened. -/
def Session.learnId (rs : Session) (pdu : Pdu) : Session :=
  if rs.sessionId.isNone then { rs with sessionId := some pdu.sessionId.toNat } else rs

/-- `rtr_parse_notify`, which is ignored during startup. -/
def rtrParseNotify (c : Cur) (pdu : Pdu) : Except RtrFatal Cur :=
  if c.rs.state = .negotiation then .ok c
  else
    let c := c.modify (·.learnId pdu)
    if c.rs.sessionId16 ≠ pdu.sessionId.toNat then .ok (c.reject .corruptData pdu)
    else if c.rs.state ≠ .established then .ok c
    else rtrFsm c .serialNotify

/-- `rtr_parse_cache_response` -/
def rtrParseCacheResponse (c : Cur) (pdu : Pdu) : Except RtrFatal Cur :=
  let c := c.modify (·.learnId pdu)
  if c.rs.sessionId16 ≠ pdu.sessionId.toNat then .ok (c.reject .corruptData pdu)
  else if c.rs.state ≠ .established then .ok (c.reject .corruptData pdu)
  else rtrFsm c .cacheResponse

/-- `rtr_parse_cache_reset` -/
def rtrParseCacheReset (c : Cur) (pdu : Pdu) : Except RtrFatal Cur :=
  if pdu.sessionId.toNat ≠ 0 then .ok (c.reject .corruptData pdu)
  else if c.rs.state ≠ .established then .ok (c.reject .corruptData pdu)
  else rtrFsm c .cacheReset

/-! ## ROAs -/

/-- `FLAG_ANNOUNCE` -/
def flagAnnounce (flags : ℕ) : Bool := flags.testBit 0

/-- The fields in front of the address: flags, lengths and `zero`. -/
def getPrefixFields (buf : List UInt8) : Option (ℕ × ℕ × ℕ × List UInt8) := do
  let (flags, buf) ← ibufGetN8 buf
  let (prefixlen, buf) ← ibufGetN8 buf
  let (maxlen, buf) ← ibufGetN8 buf
  let (_, buf) ← ibufGetN8 buf
  return (flags, prefixlen, maxlen, buf)

/-- `struct rtr_ipv4`: the flags and the ROA. -/
def getIpv4 (buf : List UInt8) : Option (ℕ × AnyRoa) := do
  let (flags, prefixlen, maxlen, buf) ← getPrefixFields buf
  let (addr, buf) ← ibufGetN32 buf
  let (asnum, _) ← ibufGetN32 buf
  return (flags, .v4 ⟨addr.toBitVec, prefixlen, maxlen, asnum.toNat⟩)

/-- `struct rtr_ipv6` -/
def getIpv6 (buf : List UInt8) : Option (ℕ × AnyRoa) := do
  let (flags, prefixlen, maxlen, buf) ← getPrefixFields buf
  let (a, buf) ← ibufGetN32 buf
  let (b, buf) ← ibufGetN32 buf
  let (c, buf) ← ibufGetN32 buf
  let (d, buf) ← ibufGetN32 buf
  let (asnum, _) ← ibufGetN32 buf
  let addr : BitVec 128 := a.toBitVec ++ b.toBitVec ++ c.toBitVec ++ d.toBitVec
  return (flags, .v6 ⟨addr, prefixlen, maxlen, asnum.toNat⟩)

/-- A ROA is announced or withdrawn. -/
def roaChange (announce : Bool) (roa : AnyRoa) (set : List AnyRoa) :
    Except RtrError (List AnyRoa) :=
  if announce then
    match rbInsert roaCmp roa set with
    | none => .error .dupRecRecv
    | some set => .ok set
  else
    match rbFind roaCmp roa set with
    | none => .error .unkRecWdrawl
    | some _ => .ok (rbRemove roaCmp roa set)

/-- `rtr_parse_ipv4_prefix` and `rtr_parse_ipv6_prefix`, with the length of an address. -/
def rtrParsePrefix (bits : ℕ) (get : List UInt8 → Option (ℕ × AnyRoa)) (c : Cur)
    (pdu : Pdu) : Cur :=
  match get pdu.body with
  | none => c.reject .corruptData pdu
  | some (flags, roa) =>
    if pdu.sessionId.toNat ≠ 0 then c.reject .corruptData pdu
    else if c.rs.state ≠ .exchange then c.reject .corruptData pdu
    else if bits < roa.prefixlen ∨ bits < roa.maxlen ∨ roa.maxlen < roa.prefixlen then
      c.reject .corruptData pdu
    else
      match roaChange (flagAnnounce flags) roa c.rs.roaSet with
      | .error err => c.reject err pdu
      | .ok set => c.modify fun rs => { rs with roaSet := set }

/-! ## ASPA sets -/

/-- The providers, which fill the rest of the PDU. -/
def getSpas : ℕ → List UInt8 → Option (List ℕ)
  | 0, _ => some []
  | n + 1, buf => do
    let (as, buf) ← ibufGetN32 buf
    return as.toNat :: (← getSpas n buf)

/-- An ASPA set is announced or withdrawn. A set that is announced replaces another one. -/
def aspaChange (announce : Bool) (aspa : AspaSet) (set : List AspaSet) :
    Except RtrError (List AspaSet) :=
  if announce then
    match rbInsert aspaCmp aspa set with
    | some set => .ok set
    | none =>
      match rbInsert aspaCmp aspa (rbRemove aspaCmp aspa set) with
      | some set => .ok set
      -- corrupt aspa tree
      | none => .error .internalError
  else
    match rbFind aspaCmp aspa set with
    | none => .error .unkRecWdrawl
    | some _ => .ok (rbRemove aspaCmp aspa set)

/-- `rtr_parse_aspa`. Records with too many providers are treated like a withdraw. -/
def rtrParseAspa (c : Cur) (pdu : Pdu) : Cur :=
  match ibufGetN32 pdu.body with
  | none => c.reject .corruptData pdu
  | some (cas, buf) =>
    let announce := flagAnnounce (pdu.sessionId.toNat / 2 ^ 8)
    let cnt := buf.length / 4
    if announce ∧ cnt = 0 then c.reject .corruptData pdu
    else if !announce ∧ cnt ≠ 0 then c.reject .corruptData pdu
    else if c.rs.state ≠ .exchange then c.reject .corruptData pdu
    else if maxAspaSpasCount < cnt then
      c.modify fun rs => { rs with aspa := rbRemove aspaCmp ⟨cas.toNat, []⟩ rs.aspa }
    else
      match getSpas cnt buf with
      | none => c.reject .corruptData pdu
      | some tas =>
        -- incorrect ASPA providers list
        if ¬tas.IsChain (· < ·) then c.sendError .aspaListErr []
        else
          match aspaChange announce ⟨cas.toNat, tas⟩ c.rs.aspa with
          | .error err => c.reject err pdu
          | .ok set => c.modify fun rs => { rs with aspa := set }

/-! ## The end of an exchange -/

/-- The timer values of an `END_OF_DATA`, validated to be in the right range: the session with those
    that were accepted, and whether all were. -/
def Session.setTimes (rs : Session) (refresh retry expire : ℕ) : Session × Bool :=
  if refresh < 1 ∨ 86400 < refresh then (rs, false)
  else if retry < 1 ∨ 7200 < retry then ({ rs with refresh := refresh }, false)
  else if expire < 600 ∨ 172800 < expire ∨ expire ≤ retry ∨ expire ≤ refresh then
    ({ rs with refresh := refresh, retry := retry }, false)
  else ({ rs with refresh := refresh, retry := retry, expire := expire }, true)

/-- The rest of `struct rtr_endofdata`. -/
def getTimes (buf : List UInt8) : Option (ℕ × ℕ × ℕ) := do
  let (refresh, buf) ← ibufGetN32 buf
  let (retry, buf) ← ibufGetN32 buf
  let (expire, _) ← ibufGetN32 buf
  return (refresh.toNat, retry.toNat, expire.toNat)

/-- `rtr_parse_end_of_data` and `rtr_parse_end_of_data_v0`. Version 0 does not have the timing
    values. -/
def rtrParseEndOfData (c : Cur) (pdu : Pdu) : Except RtrFatal Cur :=
  match ibufGetN32 pdu.body with
  | none => .ok (c.reject .corruptData pdu)
  | some (serial, buf) =>
    match if c.rs.version = 0 then some none else (getTimes buf).map some with
    | none => .ok (c.reject .corruptData pdu)
    | some times =>
      if c.rs.sessionId16 ≠ pdu.sessionId.toNat then .ok (c.reject .corruptData pdu)
      else if c.rs.state ≠ .exchange then .ok (c.reject .corruptData pdu)
      else
        let c := c.modify fun rs => { rs with serial := serial.toNat }
        match times with
        | none => rtrFsm c .endOfData
        | some (refresh, retry, expire) =>
          let (rs, ok) := c.rs.setTimes refresh retry expire
          let c := { c with rs := rs }
          if ok then rtrFsm c .endOfData else .ok (c.reject .corruptData pdu)

/-! ## Error reports -/

/-- The embedded PDU, which is ignored, and the text. -/
def errorEncoded (buf : List UInt8) : Bool :=
  ((do
    let (pduLen, buf) ← ibufGetN32 buf
    let buf ← Rde.Nlri.ibufSkip pduLen.toNat buf
    let (msgLen, buf) ← ibufGetN32 buf
    Rde.Nlri.ibufSkip msgLen.toNat buf) : Option (List UInt8)).isSome

/-- What an error report leads to; nothing for `CACHE_RESTART`. -/
def errorEvent (pdu : Pdu) : Option Event :=
  if !errorEncoded pdu.body then some .resetAndClose
  else
    match pdu.sessionId.toNat with
    | 12 => none
    -- NO_DATA_AVAILABLE
    | 2 => some .noData
    -- UNSUPP_PROTOCOL_VERS
    | 4 => some .unsuppProtoVersion
    | _ => some .resetAndClose

/-- `rtr_parse_error`: no error is sent back. -/
def rtrParseError (c : Cur) (pdu : Pdu) : Except RtrFatal Cur :=
  match errorEvent pdu with
  | none => .ok c
  | some event => rtrFsm c event

/-! ## A message -/

/-- `rtr_process_msg` -/
def rtrProcessMsg (c : Cur) (pdu : Pdu) : Except RtrFatal Cur :=
  let (c, ok) := rtrParseHeader c pdu
  if !ok then .ok c
  else
    match pdu.type with
    | .serialNotify => rtrParseNotify c pdu
    | .cacheResponse => rtrParseCacheResponse c pdu
    | .ipv4Prefix => .ok (rtrParsePrefix 32 getIpv4 c pdu)
    | .ipv6Prefix => .ok (rtrParsePrefix 128 getIpv6 c pdu)
    | .endOfData => rtrParseEndOfData c pdu
    | .cacheReset => rtrParseCacheReset c pdu
    -- silently ignore router key
    | .routerKey => .ok c
    | .errorReport => rtrParseError c pdu
    | .aspa => .ok (rtrParseAspa c pdu)
    | .serialQuery | .resetQuery | .unknown => .ok (c.reject .unsuppPduType pdu)

end Bgpd.Rtr
