import Bgpd.Rde.Nlri

/-!
# AS Paths with Four-Byte Numbers

AS paths as bytes: `aspath_verify` and `aspath_inflate` of `util.c`, `aspath_deflate` and
`aspath_merge` of `rde_attr.c`. A segment is a type, a length and as many AS numbers, of two
bytes on a session with an OLD speaker and of four bytes everywhere else. `AS4_PATH` carries the
numbers that an OLD speaker can not represent.

## Layout

- `aspathVerify`: what is accepted
- `aspathDeflate`, `aspathInflate`: between two and four bytes
- `aspathMerge`: `AS4_PATH` put back into the path
- `relay`, `receive`: a path on its way through an OLD speaker
-/

namespace Bgpd.Rde.As4

open Nlri

/-! ## Constants -/

def asSet : UInt8 := 1

def asSequence : UInt8 := 2

def asConfedSequence : UInt8 := 3

def asConfedSet : UInt8 := 4

/-- `AS_TRANS` -/
def asTrans : UInt32 := 23456

/-- `MAX_ASPATH_COUNT` -/
def maxAspathCount : ℕ := 750

/-- `USHRT_MAX` -/
def ushrtMax : UInt32 := 65535

/-! ## AS numbers -/

/-- `ibuf_get_n16` of an AS number. -/
def ibufGetN16 : List UInt8 → Option (UInt32 × List UInt8)
  | a :: b :: buf => some (UInt32.ofNat (a.toNat * 2 ^ 8 + b.toNat), buf)
  | _ => none

/-- The two bytes that `aspath_deflate` writes. -/
def addN16 (as : UInt32) : List UInt8 := [UInt8.ofNat (as.toNat / 2 ^ 8), UInt8.ofNat as.toNat]

/-- A loop over `ibuf_get_n32` or `ibuf_get_n16`. -/
def getAses (get : List UInt8 → Option (UInt32 × List UInt8)) :
    ℕ → List UInt8 → Option (List UInt32 × List UInt8)
  | 0, buf => some ([], buf)
  | n + 1, buf => do
    let (as, buf) ← get buf
    let (ases, buf) ← getAses get n buf
    return (as :: ases, buf)

/-! ## Verification -/

/-- `AS_ERR_LEN` to `AS_ERR_MAX` -/
inductive AsErr where
  | len | type | bad | soft | max
  deriving DecidableEq, Repr

/-- `error = AS_ERR_SOFT` under a condition: the path is not used, but the session goes on. -/
def soften (c : Prop) [Decidable c] (error : Option AsErr) : Option AsErr :=
  if c then some .soft else error

/-- The loop of `aspath_verify`, with the soft error so far and the number of ASes. Every segment
    has a header, so the length of the buffer is enough fuel. -/
def verifyLoop (as4byte permitSet : Bool) :
    ℕ → List UInt8 → Option AsErr → ℕ → Option AsErr
  | _, [], error, count => if maxAspathCount < count then some .max else error
  | n + 1, segType :: segLen :: buf, error, count =>
    -- empty aspath segments are not allowed
    if segLen = 0 then some .bad
    else
      -- confederations, and sets if they are filtered
      let error := soften (segType = asConfedSequence ∨ segType = asConfedSet) error
      let error := soften (!permitSet ∧ segType = asSet) error
      if segType ≠ asSet ∧ segType ≠ asSequence ∧ segType ≠ asConfedSequence ∧
          segType ≠ asConfedSet then some .type
      else
        match getAses (if as4byte then ibufGetN32 else ibufGetN16) segLen.toNat buf with
        | none => some .len
        -- RFC 7607 - AS 0 is considered malformed
        | some (ases, buf) =>
          verifyLoop as4byte permitSet n buf (soften (0 ∈ ases) error) (count + segLen.toNat)
  | _, _, _, _ => some .len

/-- `aspath_verify`; `none` is no error. -/
def aspathVerify (buf : List UInt8) (as4byte permitSet : Bool) : Option AsErr :=
  -- odd length aspath are invalid
  if buf.length % 2 = 1 then some .bad else verifyLoop as4byte permitSet buf.length buf none 0

/-! ## Two and four bytes -/

/-- The loop of `aspath_inflate`. -/
def inflateLoop : ℕ → List UInt8 → Option (List UInt8)
  | _, [] => some []
  | n + 1, segType :: segLen :: buf => do
    if segLen = 0 then none
    let (ases, buf) ← getAses ibufGetN16 segLen.toNat buf
    let out ← inflateLoop n buf
    return segType :: segLen :: (ases.flatMap ibufAddN32 ++ out)
  | _, _ => none

/-- `aspath_inflate` -/
def aspathInflate (buf : List UInt8) : Option (List UInt8) := inflateLoop buf.length buf

/-- The second loop of `aspath_deflate`; `true` is `*flagnew`. A segment that is cut off is fatal
    in the first loop. -/
def deflateLoop : ℕ → List UInt8 → Option (List UInt8 × Bool)
  | _, [] => some ([], false)
  | n + 1, segType :: segLen :: data => do
    let (ases, data) ← getAses ibufGetN32 segLen.toNat data
    let (ndata, flagnew) ← deflateLoop n data
    return (segType :: segLen ::
        ((ases.map fun as => if ushrtMax < as then asTrans else as).flatMap addN16 ++ ndata),
      ases.any (ushrtMax < ·) || flagnew)
  | _, _ => none

/-- `aspath_deflate` -/
def aspathDeflate (data : List UInt8) : Option (List UInt8 × Bool) := deflateLoop data.length data

/-- The loop of `aspath_count`. Paths are verified, so that no segment is cut off. -/
def countLoop : ℕ → List UInt8 → ℕ
  | n + 1, segType :: segLen :: data =>
    (if segType = asSet then 1 else segLen.toNat) + countLoop n (data.drop (4 * segLen.toNat))
  | _, _ => 0

/-- `aspath_count` -/
def aspathCount (data : List UInt8) : ℕ := countLoop data.length data

/-! ## Merge -/

/-- `seg_type`, `seg_len` and `nseg` of a segment that is not finished, which is `newseg = 0`. -/
structure OpenSeg where
  segType : UInt8
  segLen : UInt8
  nseg : ℕ
  deriving DecidableEq

/-- The first loop of `aspath_domerge`: what is only in the old path. The result is what is
    written, the rest of `in` and the segment that is not finished. -/
def takeOld : ℕ → List UInt8 → ℕ → Option (List UInt8 × List UInt8 × Option OpenSeg)
  | _, inb, 0 => some ([], inb, none)
  | n + 1, segType :: segLen :: inb, cnt@(_ + 1) =>
    if segType ≠ asSet ∧ cnt < segLen.toNat then do
      let (ases, inb) ← getAses ibufGetN32 cnt inb
      return (segType :: segLen :: ases.flatMap ibufAddN32, inb, some ⟨segType, segLen, cnt⟩)
    else do
      let (ases, inb) ← getAses ibufGetN32 segLen.toNat inb
      let (out, inb, seg) ← takeOld n inb (cnt - if segType = asSet then 1 else segLen.toNat)
      return (segType :: segLen :: (ases.flatMap ibufAddN32 ++ out), inb, seg)
  | _, _, _ => none

/-- If the 2-byte ASN is `AS_TRANS` then take the ASN from the 4-byte path, else if the two ASN
    mismatch, fail hard. -/
def mergeAs (as as4 : UInt32) : Option UInt32 :=
  if as = asTrans then some as4 else if as ≠ as4 then none else some as

/-- The inner loop of the second one. Both numbers are read from `in`. -/
def mergeAses : ℕ → List UInt8 → Option (List UInt32 × List UInt8)
  | 0, inb => some ([], inb)
  | n + 1, inb => do
    let (as, inb) ← ibufGetN32 inb
    let (as4, inb) ← ibufGetN32 inb
    let as ← mergeAs as as4
    let (ases, inb) ← mergeAses n inb
    return (as :: ases, inb)

/-- The second loop of `aspath_domerge`. -/
def mergeLoop : ℕ → List UInt8 → List UInt8 → Option OpenSeg → Option (List UInt8)
  | _, [], _, _ => some []
  -- start new segment
  | n + 1, segType :: segLen :: inb, seg4Type :: seg4Len :: in4, none => do
    -- bail if segments don't match
    if segType ≠ seg4Type ∨ segLen ≠ seg4Len then none
    let (ases, inb) ← mergeAses segLen.toNat inb
    let out ← mergeLoop n inb in4 none
    return segType :: segLen :: (ases.flatMap ibufAddN32 ++ out)
  -- same segment, can only happen on first round
  | n + 1, inb, seg4Type :: seg4Len :: in4, some seg => do
    if seg.segType ≠ seg4Type ∨ seg.segLen.toNat - seg.nseg ≠ seg4Len.toNat then none
    let (ases, inb) ← mergeAses (seg.segLen.toNat - seg.nseg) inb
    let out ← mergeLoop n inb in4 none
    return ases.flatMap ibufAddN32 ++ out
  | _, _, _, _ => none

/-- `aspath_domerge` -/
def aspathDomerge (inb in4 : List UInt8) (cnt : ℕ) : Option (List UInt8) := do
  let (out, inb', seg) ← takeOld inb.length inb cnt
  let merged ← mergeLoop inb.length inb' in4 seg
  return out ++ merged

/-- `aspath_merge`: the path of `a` afterwards. `none` invalidates it. -/
def aspathMerge (aspath attr : List UInt8) : Option (List UInt8) :=
  let ascnt := aspathCount attr
  -- if ASPATH is shorter then AS4_PATH the merge is aborted and AS4_PATH is dropped
  if aspathCount aspath < ascnt then some aspath
  -- something is not right, abort the hard way
  else if aspath.length < attr.length then none
  else aspathDomerge aspath attr (aspathCount aspath - ascnt)

/-! ## Paths as segments -/

/-- A segment of a path. -/
structure Seg where
  type : UInt8
  ases : List UInt32
  deriving DecidableEq

/-- A path on the wire, with AS numbers as `add` writes them. -/
def encode (add : UInt32 → List UInt8) (segs : List Seg) : List UInt8 :=
  segs.flatMap fun s => s.type :: UInt8.ofNat s.ases.length :: s.ases.flatMap add

/-- One AS number is put in front of a path: into the first segment if this is a sequence with
    space left, or into a segment of its own. -/
def prependAs (step : UInt32 × Bool) (segs : List Seg) : List Seg :=
  match segs with
  | [] => [⟨asSequence, [step.1]⟩]
  | s :: rest =>
    if step.2 ∨ s.type ≠ asSequence ∨ 255 ≤ s.ases.length then ⟨asSequence, [step.1]⟩ :: s :: rest
    else ⟨s.type, step.1 :: s.ases⟩ :: rest

/-- Any number of AS numbers, the last one in front. -/
def prepend (steps : List (UInt32 × Bool)) (segs : List Seg) : List Seg :=
  steps.foldl (fun segs step => prependAs step segs) segs

/-- The AS numbers as an OLD speaker sees them. -/
def deflateSeg (s : Seg) : Seg :=
  ⟨s.type, s.ases.map fun as => if ushrtMax < as then asTrans else as⟩

/-- `AS_PATH` and `AS4_PATH` behind an OLD speaker: the segments of what `up_generate_attr` sent,
    with AS numbers put in front, and the other attribute as it was. -/
def relay (steps : List (UInt32 × Bool)) (segs : List Seg) : List UInt8 × Option (List UInt8) :=
  (encode addN16 (prepend steps (segs.map deflateSeg)),
    if segs.any fun s => s.ases.any (ushrtMax < ·) then some (encode ibufAddN32 segs) else none)

/-- Reception on a session with an OLD speaker: `aspath_inflate`, and the last step of
    `rde_as4byte_fixup` if there is an `AS4_PATH`. The branch before it, which drops `AS4_PATH` if
    there is an `AGGREGATOR` with a number other than `AS_TRANS`, is left out: the paths are those
    of updates without an `AGGREGATOR`. -/
def receive (aspath : List UInt8) (as4path : Option (List UInt8)) : Option (List UInt8) := do
  let aspath ← aspathInflate aspath
  match as4path with
  | none => return aspath
  | some attr => aspathMerge aspath attr

end Bgpd.Rde.As4
