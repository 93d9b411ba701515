import Bgpd.Rde.Nlri

/-!
# Flow Specifications

The NLRI of a flow specification is a sequence of components, each with a type, in increasing
order of types. Model of the parts of `flowspec.c` that validate and compare such NLRI.

## Layout

- `flowspecNextComponent`, `flowspecValid`: components
- `flowspecCmp`: the order of two NLRI
-/

namespace Bgpd.Rde.Nlri

/-! ## Components -/

/-- `FLOWSPEC_OP_LEN` -/
def flowspecOpLen (op : UInt8) : ℕ := 2 ^ ((op &&& 0x30) >>> 4).toNat

/-- The loop over the operators in `flowspec_next_component`. Each round reads two bytes or more,
    so that the length of the buffer is enough fuel. -/
def opLoop (buf : List UInt8) : ℕ → ℕ → Option ℕ
  | 0, _ => none
  | n + 1, vlen =>
    match buf[vlen]? with
    | none => none
    | some op =>
      -- first component cannot have and flag set
      if vlen = 1 ∧ op &&& 0x40 ≠ 0 then none
      else
        let vlen := vlen + (flowspecOpLen op + 1)
        if buf.length < vlen then none
        else if op &&& 0x80 = 0 then opLoop buf n vlen
        else some vlen

/-- `FLOWSPEC_TYPE_DEST` and `FLOWSPEC_TYPE_SOURCE` -/
def isPrefixType (type : ℕ) : Bool := type = 1 ∨ type = 2

/-- `flowspec_next_component`: the length of the component with its type, and the type. -/
def flowspecNextComponent (buf : List UInt8) (isV6 : Bool) : Option (ℕ × ℕ) :=
  match buf with
  | [] => none
  | t :: rest =>
    let type := t.toNat
    if type < 1 ∨ 14 ≤ type then none
    else if isPrefixType type then
      if !isV6 then
        -- regular RFC 4271 encoding of prefixes
        match rest with
        | [] => none
        | plen :: _ =>
          let vlen := 1 + (prefixBytes plen.toNat + 1)
          if 32 < plen.toNat ∨ buf.length < vlen then none else some (vlen, type)
      else
        -- special RFC 8956 encoding with extra offset
        match rest with
        | plen :: off :: _ =>
          if 128 < plen.toNat ∨ plen.toNat ≤ off.toNat then none
          else
            let vlen := 1 + (prefixBytes (plen.toNat - off.toNat) + 1 + 1)
            if buf.length < vlen then none else some (vlen, type)
        | _ => none
    -- `FLOWSPEC_TYPE_FLOW`
    else if type = 13 ∧ !isV6 then none
    else (opLoop buf buf.length 1).map fun vlen => (vlen, type)

/-- The loop of `flowspec_valid`; every component has a byte. -/
def validLoop (isV6 : Bool) : ℕ → ℕ → List UInt8 → Bool
  | 0, _, buf => buf.isEmpty
  | n + 1, prev, buf =>
    if buf.isEmpty then true
    else
      match flowspecNextComponent buf isV6 with
      | none => false
      | some (l, type) =>
        -- ensure that types are ordered
        if type ≤ prev then false else validLoop isV6 n type (buf.drop l)

/-- `flowspec_valid` -/
def flowspecValid (buf : List UInt8) (isV6 : Bool) : Bool :=
  !buf.isEmpty && buf.length ≤ 4000 && validLoop isV6 buf.length 0 buf

/-! ## Comparison -/

/-- `memcmp` of two blocks of one size. -/
def memcmp (a b : List UInt8) : Ordering := compare a b

/-- `extract_prefix` into a cleared array. -/
def extractPrefix (p : List UInt8) (len pfxlen max : ℕ) : Bytes max :=
  if len < prefixBytes pfxlen ∨ max < prefixBytes pfxlen then padTo max []
  else padTo max (extractLoop pfxlen p)

/-- The end of `flowspec_cmp_prefix4` and `flowspec_cmp_prefix6`: the pattern begins at `skip`. -/
def cmpPattern (abuf : List UInt8) (ablen : ℕ) (bbuf : List UInt8) (bblen skip max : ℕ)
    (alen blen : ℕ) : Ordering :=
  let clen := min alen blen
  -- only extract the common prefix
  let a := extractPrefix (abuf.drop skip) (ablen - skip) clen max
  let b := extractPrefix (bbuf.drop skip) (bblen - skip) clen max
  -- lowest IP value has precedence; if common prefix, more specific route has precedence
  (memcmp a.1 b.1).then (compare blen alen)

def byteAt (buf : List UInt8) (i : ℕ) : ℕ := (buf.getD i 0).toNat

/-- `flowspec_cmp_prefix4` -/
def flowspecCmpPrefix4 (abuf : List UInt8) (ablen : ℕ) (bbuf : List UInt8) (bblen : ℕ) : Ordering :=
  cmpPattern abuf ablen bbuf bblen 2 4 (byteAt abuf 1) (byteAt bbuf 1)

/-- `flowspec_cmp_prefix6`: lowest offset has precedence. -/
def flowspecCmpPrefix6 (abuf : List UInt8) (ablen : ℕ) (bbuf : List UInt8) (bblen : ℕ) : Ordering :=
  (compare (byteAt abuf 2) (byteAt bbuf 2)).then
    (cmpPattern abuf ablen bbuf bblen 3 16 (byteAt abuf 1 - byteAt abuf 2)
      (byteAt bbuf 1 - byteAt bbuf 2))

/-- The switch in `flowspec_cmp`, for two components of one type. -/
def cmpComponent (isV6 : Bool) (type : ℕ) (a : List UInt8) (acomplen : ℕ) (b : List UInt8)
    (bcomplen : ℕ) : Ordering :=
  if isPrefixType type then
    if !isV6 then flowspecCmpPrefix4 a acomplen b bcomplen
    else flowspecCmpPrefix6 a acomplen b bcomplen
  else
    -- longest component wins when common prefix is equal
    (memcmp (a.take (min acomplen bcomplen)) (b.take (min acomplen bcomplen))).then
      (compare bcomplen acomplen)

/-- The loop of `flowspec_cmp`. A component has a byte, so the first buffer is empty when the fuel
    is used up. -/
def cmpLoop (isV6 : Bool) : ℕ → List UInt8 → List UInt8 → Ordering
  | 0, _, _ => .eq
  | n + 1, a, b =>
    if a.isEmpty ∨ b.isEmpty then .eq
    else
      match flowspecNextComponent a isV6, flowspecNextComponent b isV6 with
      -- should not happen
      | none, _ => .gt
      | some _, none => .lt
      | some (acomplen, atype), some (bcomplen, btype) =>
        -- if types differ, lowest type wins
        (compare atype btype).then <| (cmpComponent isV6 atype a acomplen b bcomplen).then <|
          let a := a.drop acomplen
          let b := b.drop bcomplen
          -- rule with more components wins
          if !a.isEmpty ∧ b.isEmpty then .lt
          else if a.isEmpty ∧ !b.isEmpty then .gt
          else cmpLoop isV6 n a b

/-- `flowspec_cmp` -/
def flowspecCmp (a b : List UInt8) (isV6 : Bool) : Ordering := cmpLoop isV6 a.length a b

end Bgpd.Rde.Nlri
