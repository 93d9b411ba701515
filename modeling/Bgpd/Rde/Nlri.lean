import Bgpd.Rde.Types

/-!
# Prefixes on the Wire

The NLRI decoders of `util.c`, and `pt_fill` and `pt_writebuf` of `rde_prefix.c`. A buffer is
the list of its bytes that are not read yet. Numbers that the code keeps in network byte order
(addresses, route distinguishers, ethernet tags) are their bytes. Lengths that are one byte on
the wire are natural numbers; the code checks before it subtracts from them.

A `struct bgpd_addr` is a union with a tag, here an inductive type. `labellen` is the length of
the label stack.

## Layout

- `extractPrefixBuf`, `nlriGet`: decoding
- `ptFill`: entries of the prefix table
- `ptWritebuf`: encoding
- `RouteKey`: what makes two routes the same
-/

namespace Bgpd.Rde.Nlri

/-! ## Buffers -/

/-- A fixed number of bytes. -/
abbrev Bytes (n : ℕ) := {l : List UInt8 // l.length = n}

/-- An array that was cleared, with `l` written to its start. -/
def padTo (n : ℕ) (l : List UInt8) : Bytes n :=
  ⟨(l ++ List.replicate n 0).take n, by simp⟩

/-- `ibuf_get`, also `ibuf_get_h32` and `ibuf_get_h64`. -/
def ibufGet (n : ℕ) (buf : List UInt8) : Option (Bytes n × List UInt8) :=
  if h : n ≤ buf.length then some (⟨buf.take n, by simpa using h⟩, buf.drop n) else none

/-- `ibuf_get_n8` -/
def ibufGetN8 : List UInt8 → Option (ℕ × List UInt8)
  | [] => none
  | b :: buf => some (b.toNat, buf)

/-- `ibuf_skip` -/
def ibufSkip (n : ℕ) (buf : List UInt8) : Option (List UInt8) :=
  if n ≤ buf.length then some (buf.drop n) else none

/-- `ibuf_add_n8`: the bytes that are added. -/
def ibufAddN8 (value : ℕ) : Option (List UInt8) :=
  if 255 < value then none else some [UInt8.ofNat value]

/-- `ibuf_add_n32` of a path id; `UInt8.ofNat` keeps the last eight bits. -/
def ibufAddN32 (value : UInt32) : List UInt8 :=
  [UInt8.ofNat (value.toNat / 2 ^ 24), UInt8.ofNat (value.toNat / 2 ^ 16),
    UInt8.ofNat (value.toNat / 2 ^ 8), UInt8.ofNat value.toNat]

/-- `ibuf_get_n32` -/
def ibufGetN32 (buf : List UInt8) : Option (UInt32 × List UInt8) :=
  match buf with
  | a :: b :: c :: d :: buf =>
    some (UInt32.ofNat (a.toNat * 2 ^ 24 + b.toNat * 2 ^ 16 + c.toNat * 2 ^ 8 + d.toNat), buf)
  | _ => none

/-! ## Prefixes -/

/-- The bytes of `PREFIX_SIZE` without the length itself. -/
def prefixBytes (plen : ℕ) : ℕ := (plen + 7) / 8

/-- `addrmask` -/
def addrmask (n : ℕ) : UInt8 := [0x00, 0x80, 0xc0, 0xe0, 0xf0, 0xf8, 0xfc, 0xfe, 0xff].getD n 0

/-- The loop of `extract_prefix` and `extract_prefix_buf`: the bytes that are written. -/
def extractLoop : ℕ → List UInt8 → List UInt8
  | _, [] => []
  | pfxlen, b :: p =>
    if pfxlen = 0 then []
    else if pfxlen < 8 then [b &&& addrmask pfxlen]
    else b :: extractLoop (pfxlen - 8) p

/-- `extract_prefix_buf` into a cleared array of size `max`. -/
def extractPrefixBuf (buf : List UInt8) (pfxlen max : ℕ) : Option (Bytes max × List UInt8) :=
  let plen := prefixBytes pfxlen
  if buf.length < plen ∨ max < plen then none
  else some (padTo max (extractLoop pfxlen buf), buf.drop plen)

/-- `inet4applymask` and `inet6applymask` on the bytes of an address. -/
def maskBytes : ℕ → List UInt8 → List UInt8
  | _, [] => []
  | n, b :: rest => if 8 ≤ n then b :: maskBytes (n - 8) rest
    else (b &&& addrmask n) :: maskBytes 0 rest

theorem length_maskBytes (n : ℕ) (l : List UInt8) : (maskBytes n l).length = l.length := by
  induction l generalizing n with
  | nil => rfl
  | cons b rest ih =>
    rw [maskBytes]
    split_ifs
    · simp [ih]
    · simp [ih]

def applymask {max : ℕ} (a : Bytes max) (prefixlen : ℕ) : Bytes max :=
  ⟨maskBytes prefixlen a.1, (length_maskBytes _ _).trans a.2⟩

/-! ## Addresses -/

/-- The EVPN route types that are supported. -/
inductive EvpnType where
  | type2 | type3
  deriving DecidableEq, Repr

/-- `evpn.aid` and the address of that family. -/
inductive EvpnIp where
  | unspec
  | v4 (a : Bytes 4)
  | v6 (a : Bytes 16)
  deriving DecidableEq

/-- `struct evpn_addr`, with the fields of `struct bgpd_addr` that EVPN uses. -/
structure EvpnAddr where
  type : EvpnType
  rd : Bytes 8
  ethtag : Bytes 4
  mac : Bytes 6 := padTo 6 []
  esi : Bytes 10 := padTo 10 []
  ip : EvpnIp := .unspec
  labelstack : List UInt8 := []
  deriving DecidableEq

/-- `struct bgpd_addr` of the families that are decoded. -/
inductive NlriAddr where
  | inet (v4 : Bytes 4)
  | inet6 (v6 : Bytes 16)
  | vpn4 (rd : Bytes 8) (v4 : Bytes 4) (labelstack : List UInt8)
  | vpn6 (rd : Bytes 8) (v6 : Bytes 16) (labelstack : List UInt8)
  | evpn (e : EvpnAddr)
  deriving DecidableEq

/-! ## Decoding -/

/-- `nlri_get_prefix` and `nlri_get_prefix6`, which differ in the size of the address. -/
def nlriGetPlain (max : ℕ) (buf : List UInt8) : Option (Bytes max × ℕ × List UInt8) := do
  let (pfxlen, buf) ← ibufGetN8 buf
  if max * 8 < pfxlen then none
  let (a, buf) ← extractPrefixBuf buf pfxlen max
  return (a, pfxlen, buf)

/-- `nlri_get_prefix` -/
def nlriGetPrefix (buf : List UInt8) : Option (NlriAddr × ℕ × List UInt8) := do
  let (a, prefixlen, buf) ← nlriGetPlain 4 buf
  return (.inet a, prefixlen, buf)

/-- `nlri_get_prefix6` -/
def nlriGetPrefix6 (buf : List UInt8) : Option (NlriAddr × ℕ × List UInt8) := do
  let (a, prefixlen, buf) ← nlriGetPlain 16 buf
  return (.inet6 a, prefixlen, buf)

/-- `BGP_MPLS_BOS` in the last byte of a label. -/
def isBos (label : Bytes 3) : Bool := label.1.getD 2 0 &&& 1 ≠ 0

/-- The loop over the label stack in `nlri_get_vpn4` and `nlri_get_vpn6`. The first argument is
    the number of labels there is still space for in `prefix->labelstack`. -/
def labelLoop (withdraw : Bool) :
    ℕ → List UInt8 → ℕ → List UInt8 → Option (List UInt8 × ℕ × List UInt8)
  | 0, _, _, _ => none
  | n + 1, labelstack, pfxlen, buf => do
    if pfxlen < 3 * 8 then none
    if withdraw then
      -- on withdraw ignore the labelstack all together
      let buf ← ibufSkip 3 buf
      return (labelstack, pfxlen - 3 * 8, buf)
    else
      let (label, buf) ← ibufGet 3 buf
      if isBos label then return (labelstack ++ label.1, pfxlen - 3 * 8, buf)
      else labelLoop withdraw n (labelstack ++ label.1) (pfxlen - 3 * 8) buf

/-- `nlri_get_vpn4` and `nlri_get_vpn6`: route distinguisher, address, label stack and length.
    There is space for 18 bytes of labels. -/
def nlriGetVpn (max : ℕ) (withdraw : Bool) (buf : List UInt8) :
    Option (Bytes 8 × Bytes max × List UInt8 × ℕ × List UInt8) := do
  let (pfxlen, buf) ← ibufGetN8 buf
  let (labelstack, pfxlen, buf) ← labelLoop withdraw 6 [] pfxlen buf
  if pfxlen < 8 * 8 then none
  let (rd, buf) ← ibufGet 8 buf
  let pfxlen := pfxlen - 8 * 8
  if max * 8 < pfxlen then none
  let (a, buf) ← extractPrefixBuf buf pfxlen max
  return (rd, a, labelstack, pfxlen, buf)

/-- `nlri_get_vpn4` -/
def nlriGetVpn4 (withdraw : Bool) (buf : List UInt8) : Option (NlriAddr × ℕ × List UInt8) := do
  let (rd, a, labelstack, prefixlen, buf) ← nlriGetVpn 4 withdraw buf
  return (.vpn4 rd a labelstack, prefixlen, buf)

/-- `nlri_get_vpn6` -/
def nlriGetVpn6 (withdraw : Bool) (buf : List UInt8) : Option (NlriAddr × ℕ × List UInt8) := do
  let (rd, a, labelstack, prefixlen, buf) ← nlriGetVpn 16 withdraw buf
  return (.vpn6 rd a labelstack, prefixlen, buf)

/-- The destination of an EVPN route. -/
def evpnDest (pfxlen : ℕ) (buf : List UInt8) : Option (EvpnIp × List UInt8) :=
  if pfxlen = 0 then some (.unspec, buf)
  else if pfxlen = 32 then (ibufGet 4 buf).map fun (a, buf) => (.v4 a, buf)
  else if pfxlen = 128 then (ibufGet 16 buf).map fun (a, buf) => (.v6 a, buf)
  else none

/-- `nlri_get_evpn` for `EVPN_ROUTE_TYPE_2`, on the `nlrilen` bytes of the route. -/
def nlriGetEvpn2 (buf : List UInt8) : Option (EvpnAddr × ℕ) := do
  let (rd, buf) ← ibufGet 8 buf
  let (esi, buf) ← ibufGet 10 buf
  let (ethtag, buf) ← ibufGet 4 buf
  let (maclen, buf) ← ibufGetN8 buf
  if maclen ≠ 48 then none
  let (mac, buf) ← ibufGet 6 buf
  let (pfxlen, buf) ← ibufGetN8 buf
  let (ip, buf) ← evpnDest pfxlen buf
  -- VNI
  if buf.length ≠ 3 ∧ buf.length ≠ 6 then none
  return ({ type := .type2, rd, esi, ethtag, mac, ip, labelstack := buf }, pfxlen)

/-- `nlri_get_evpn` for `EVPN_ROUTE_TYPE_3`: there has to be a destination. -/
def nlriGetEvpn3 (buf : List UInt8) : Option (EvpnAddr × ℕ) := do
  let (rd, buf) ← ibufGet 8 buf
  let (ethtag, buf) ← ibufGet 4 buf
  let (pfxlen, buf) ← ibufGetN8 buf
  if pfxlen = 0 then none
  let (ip, buf) ← evpnDest pfxlen buf
  if buf.length ≠ 0 then none
  return ({ type := .type3, rd, ethtag, ip }, pfxlen)

/-- `nlri_get_evpn` -/
def nlriGetEvpn (buf : List UInt8) : Option (NlriAddr × ℕ × List UInt8) := do
  let (type, buf) ← ibufGetN8 buf
  let (nlrilen, buf) ← ibufGetN8 buf
  if type = 2 then
    let (evpnbuf, buf) ← ibufGet nlrilen buf
    let (e, pfxlen) ← nlriGetEvpn2 evpnbuf.1
    return (.evpn e, pfxlen, buf)
  else if type = 3 then
    let (evpnbuf, buf) ← ibufGet nlrilen buf
    let (e, pfxlen) ← nlriGetEvpn3 evpnbuf.1
    return (.evpn e, pfxlen, buf)
  else none

/-- The switch over the family in `rde_update_dispatch`. Flowspec is ignored. -/
def nlriGet (aid : Aid) (withdraw : Bool) (buf : List UInt8) :
    Option (NlriAddr × ℕ × List UInt8) :=
  match aid with
  | .inet => nlriGetPrefix buf
  | .inet6 => nlriGetPrefix6 buf
  | .vpn4 => nlriGetVpn4 withdraw buf
  | .vpn6 => nlriGetVpn6 withdraw buf
  | .evpn => nlriGetEvpn buf
  | .flowspec4 | .flowspec6 => none

/-- A round of the loops over the NLRI in `rde_update_dispatch`: with add-path the path id comes
    first. -/
def nlriGetPath (aid : Aid) (addPath withdraw : Bool) (buf : List UInt8) :
    Option (UInt32 × NlriAddr × ℕ × List UInt8) := do
  let (pathid, buf) ← if addPath then ibufGetN32 buf else some (0, buf)
  let (addr, prefixlen, buf) ← nlriGet aid withdraw buf
  return (pathid, addr, prefixlen, buf)

/-! ## The prefix table -/

/-- The `struct pt_entry` types. `pflow->len - PT_FLOW_SIZE` is the length of the flow. -/
inductive PtEntry where
  | inet (prefixlen : ℕ) (prefix4 : Bytes 4)
  | inet6 (prefixlen : ℕ) (prefix6 : Bytes 16)
  | vpn4 (prefixlen : ℕ) (rd : Bytes 8) (prefix4 : Bytes 4) (labelstack : List UInt8)
  | vpn6 (prefixlen : ℕ) (rd : Bytes 8) (prefix6 : Bytes 16) (labelstack : List UInt8)
  | evpn (prefixlen : ℕ) (e : EvpnAddr)
  | flow (isV6 : Bool) (flow : List UInt8)
  deriving DecidableEq

def PtEntry.aid : PtEntry → Aid
  | inet .. => .inet
  | inet6 .. => .inet6
  | vpn4 .. => .vpn4
  | vpn6 .. => .vpn6
  | evpn .. => .evpn
  | flow false _ => .flowspec4
  | flow true _ => .flowspec6

/-- `pt_fill`. The family is one that is known. -/
def ptFill (addr : NlriAddr) (prefixlen : ℕ) : PtEntry :=
  match addr with
  | .inet v4 => .inet (min prefixlen 32) (applymask v4 (min prefixlen 32))
  | .inet6 v6 => .inet6 (min prefixlen 128) (applymask v6 (min prefixlen 128))
  | .vpn4 rd v4 labelstack =>
    .vpn4 (min prefixlen 32) rd (applymask v4 (min prefixlen 32)) labelstack
  | .vpn6 rd v6 labelstack =>
    .vpn6 (min prefixlen 128) rd (applymask v6 (min prefixlen 128)) labelstack
  | .evpn e =>
    match e.ip with
    -- see rfc7432 section 7.2
    | .unspec => .evpn prefixlen e
    | .v4 _ => .evpn (min prefixlen 32) e
    | .v6 _ => .evpn (min prefixlen 128) e

/-! ## Encoding -/

/-- The plain families of `pt_writebuf`. -/
def writePlain (plen : ℕ) (a : List UInt8) : Option (List UInt8) := do
  let len ← ibufAddN8 plen
  return len ++ a.take (prefixBytes plen)

/-- The VPN families of `pt_writebuf`. -/
def writeVpn (prefixlen : ℕ) (rd : Bytes 8) (a labelstack : List UInt8) (withdraw : Bool) :
    Option (List UInt8) := do
  -- withdraw have one compat label as placeholder
  let plen := prefixlen + 8 * 8 + if withdraw then 3 * 8 else labelstack.length * 8
  let len ← ibufAddN8 plen
  -- magic compatibility label as per rfc8277
  let label := if withdraw then [0x80, 0, 0] else labelstack
  return len ++ label ++ rd.1 ++ a.take (prefixBytes prefixlen)

def EvpnIp.bytes : EvpnIp → List UInt8
  | unspec => []
  | v4 a => a.1
  | v6 a => a.1

/-- `EVPN_ROUTE_TYPE_2` in `pt_writebuf`. -/
def writeEvpn2 (prefixlen : ℕ) (e : EvpnAddr) : Option (List UInt8) := do
  let plen := 8 * 8 + 10 * 8 + 4 * 8 + 8 + 6 * 8 + 8 + prefixlen + e.labelstack.length * 8
  let len ← ibufAddN8 (prefixBytes plen)
  let maclen ← ibufAddN8 (6 * 8)
  let pfxlen ← ibufAddN8 prefixlen
  return len ++ (e.rd.1 ++ e.esi.1 ++ e.ethtag.1 ++ maclen ++ e.mac.1 ++ pfxlen ++ e.ip.bytes ++
    e.labelstack)

/-- `EVPN_ROUTE_TYPE_3` in `pt_writebuf`. -/
def writeEvpn3 (prefixlen : ℕ) (e : EvpnAddr) : Option (List UInt8) := do
  let plen := 8 * 8 + 4 * 8 + 8 + prefixlen
  let len ← ibufAddN8 (prefixBytes plen)
  let pfxlen ← ibufAddN8 prefixlen
  if e.ip = .unspec then none
  return len ++ (e.rd.1 ++ e.ethtag.1 ++ pfxlen ++ e.ip.bytes)

/-- The flowspec families of `pt_writebuf`. -/
def writeFlow (flow : List UInt8) : Option (List UInt8) := do
  let flowlen := flow.length
  if flowlen < 0xf0 then
    let len ← ibufAddN8 flowlen
    return len ++ flow
  else
    let high ← ibufAddN8 (0xf0 ||| (flowlen >>> 8))
    let low ← ibufAddN8 flowlen
    return high ++ low ++ flow

/-- The switch of `pt_writebuf`. -/
def writeEntry (pte : PtEntry) (withdraw : Bool) : Option (List UInt8) :=
  match pte with
  | .inet prefixlen prefix4 => writePlain prefixlen prefix4.1
  | .inet6 prefixlen prefix6 => writePlain prefixlen prefix6.1
  | .vpn4 prefixlen rd prefix4 labelstack => writeVpn prefixlen rd prefix4.1 labelstack withdraw
  | .vpn6 prefixlen rd prefix6 labelstack => writeVpn prefixlen rd prefix6.1 labelstack withdraw
  | .evpn prefixlen e =>
    match e.type with
    | .type2 => do return (← ibufAddN8 2) ++ (← writeEvpn2 prefixlen e)
    | .type3 => do return (← ibufAddN8 3) ++ (← writeEvpn3 prefixlen e)
  | .flow _ flow => writeFlow flow

/-- `pt_writebuf` on a buffer with space for `max` bytes, of which those in `buf` are used. The
    temporary buffer is large enough for any entry. -/
def ptWritebuf (buf : List UInt8) (max : ℕ) (pte : PtEntry) (withdraw addPath : Bool)
    (pathid : UInt32) : Option (List UInt8) := do
  let nlri ← writeEntry pte withdraw
  let tmp := (if addPath then ibufAddN32 pathid else []) ++ nlri
  -- keep 2 bytes reserved in the withdraw case for IPv4 encoding
  if withdraw ∧ max - buf.length < tmp.length + 2 then none
  if max - buf.length < tmp.length then none
  return buf ++ tmp

/-! ## Route keys -/

/-- What two routes have to have in common to be the same route. Labels and the ethernet segment
    are no part of it. -/
inductive RouteKey where
  | inet (plen : ℕ) (a : Bytes 4)
  | inet6 (plen : ℕ) (a : Bytes 16)
  | vpn4 (plen : ℕ) (rd : Bytes 8) (a : Bytes 4)
  | vpn6 (plen : ℕ) (rd : Bytes 8) (a : Bytes 16)
  | evpn2 (rd : Bytes 8) (ethtag : Bytes 4) (mac : Bytes 6) (plen : ℕ) (ip : EvpnIp)
  | evpn3 (rd : Bytes 8) (ethtag : Bytes 4) (plen : ℕ) (ip : EvpnIp)
  | flow (isV6 : Bool) (nlri : List UInt8)
  deriving DecidableEq

def PtEntry.key : PtEntry → RouteKey
  | inet plen a => .inet plen a
  | inet6 plen a => .inet6 plen a
  | vpn4 plen rd a _ => .vpn4 plen rd a
  | vpn6 plen rd a _ => .vpn6 plen rd a
  | evpn plen e =>
    match e.type with
    | .type2 => .evpn2 e.rd e.ethtag e.mac plen e.ip
    | .type3 => .evpn3 e.rd e.ethtag plen e.ip
  | flow isV6 nlri => .flow isV6 nlri

end Bgpd.Rde.Nlri
