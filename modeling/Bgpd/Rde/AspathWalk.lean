import Bgpd.Rde.As4PathSpec
import Bgpd.Rde.Filter
import Bgpd.Rpki.Aspa

/-!
# Walks over the Bytes of an AS Path

The functions of `rde_attr.c`, `rde_aspa.c` and `util.c` that walk over an AS path, byte by byte.
Each has a loop over the segments of its own. A path is the bytes from the current segment on; the
functions trust the length of the segment, so that a read can go beyond the end of the path, and
only some of them check the length afterwards.

The other modules have these functions on lists of segments. What they do there is what they do
here on the bytes of the segments.

## Layout

- `Fault`, `segLoop`, `asLoop`: reads that can fail, and the loops
- `aspathCount` to `aspathLenmatch`: what is read of a path
- `aspathPrepend`, `aspathOverride`, `aspathDeflate`: new paths
- `aspathStrsize`, `aspathSnprint`, `aspathAsprint`: paths as text
-/

namespace Bgpd.Rde.AspathWalk

open Nlri As4

/-! ## Reads and loops -/

/-- What goes wrong: a read beyond the end of the path or a write beyond the end of the memory for
    the result, or `fatalx`. -/
inductive Fault where
  | bounds | fatalx
  deriving DecidableEq, Repr

/-- A function that reads a path. -/
abbrev Walk := Except Fault

/-- `seg[i]` -/
def readByte (seg : List UInt8) (i : ℕ) : Walk UInt8 :=
  match seg[i]? with
  | none => .error .bounds
  | some b => .ok b

/-- `seg_size` -/
def segSize (segLen : UInt8) : ℕ := 2 + 4 * segLen.toNat

/-- `aspath_extract` -/
def aspathExtract (seg : List UInt8) (pos : ℤ) : Walk UInt32 := do
  let segLen ← readByte seg 1
  -- minimal pos check, return 0 since that is an invalid ASN
  if pos < 0 ∨ segLen.toNat ≤ pos then return 0
  match ibufGetN32 (seg.drop (2 + 4 * pos.toNat)) with
  | none => .error .bounds
  | some (as, _) => return as

/-- How the body of a loop over the segments ends: at its end, where `seg_size` is checked, with a
    `continue` or a loop that does not check it, or with a `return`. -/
inductive Step (σ ρ : Type) where
  | next (s : σ)
  | skip (s : σ)
  | done (r : ρ)

variable {σ ρ : Type}

/-- A loop over the segments, while at least `least` bytes are left. The body has the bytes from the
    segment on, its type and its length. -/
def segLoop (body : σ → List UInt8 → UInt8 → UInt8 → Walk (Step σ ρ)) (least : ℕ) (s : σ)
    (seg : List UInt8) : Walk (σ ⊕ ρ) :=
  if seg.length < least then return .inl s
  else do
    let segType ← readByte seg 0
    let segLen ← readByte seg 1
    match ← body s seg segType segLen with
    | .done r => return .inr r
    | .next s =>
      if _hsize : seg.length < segSize segLen then .error .fatalx
      else segLoop body least s (seg.drop (segSize segLen))
    | .skip s =>
      if _hsize : seg.length < segSize segLen then .error .bounds
      else segLoop body least s (seg.drop (segSize segLen))
termination_by seg.length
decreasing_by all_goals (unfold segSize at *; simp only [List.length_drop]; omega)

/-- A loop over the ASes of a segment from number `i` on, which can end with a `return`. -/
def asLoop (body : σ → ℕ → Walk (σ ⊕ ρ)) : ℕ → ℕ → σ → Walk (σ ⊕ ρ)
  | _, 0, s => return .inl s
  | i, n + 1, s => do
    match ← body s i with
    | .inr r => return .inr r
    | .inl s => asLoop body (i + 1) n s

/-- The loop over the ASes is all of the body. -/
def toStep : σ ⊕ ρ → Step σ ρ
  | .inl s => .next s
  | .inr r => .done r

/-- What is returned behind the loop. -/
def finish (f : σ → ρ) : σ ⊕ ρ → ρ
  | .inl s => f s
  | .inr r => r

/-! ## What is read of a path -/

section

variable (data : List UInt8)

/-- `aspath_count` -/
def aspathCount : Walk ℕ := do
  let r ← segLoop (ρ := ℕ) (fun cnt _ segType segLen =>
    return .next ((cnt + if segType = asSet then 1 else segLen.toNat) % 2 ^ 16)) 1 0 data
  return finish id r

/-- `aspath_extract_origin` -/
def aspathExtractOrigin (localAs : UInt32) : Walk UInt32 := do
  -- AS_PATH is empty
  if data = [] then return localAs
  let r ← segLoop (ρ := UInt32) (fun as seg segType segLen => do
    if seg.length = segSize segLen ∧ segType = asSequence then
      let as ← aspathExtract seg (segLen.toNat - 1)
      return .next as
    else return .next as) 1 0 data
  return finish id r

/-- `struct aspath` -/
structure StoredAspath where
  data : List UInt8
  len : ℕ
  ascnt : ℕ
  sourceAs : UInt32
  deriving DecidableEq, Repr

/-- `aspath_get` -/
def aspathGet (localAs : UInt32) : Walk StoredAspath := do
  let ascnt ← aspathCount data
  let sourceAs ← aspathExtractOrigin data localAs
  return ⟨data, data.length, ascnt, sourceAs⟩

/-- `aspath_neighbor` -/
def aspathNeighbor (localAs : UInt32) : Walk UInt32 := do
  if data = [] then return localAs
  let segType ← readByte data 0
  if segType ≠ asSequence then return localAs
  aspathExtract data 0

/-- `aspath_loopfree` -/
def aspathLoopfree (myAS : UInt32) : Walk Bool := do
  let r ← segLoop (fun _ seg _ segLen => do
    let r ← asLoop (fun _ i => do
      let as ← aspathExtract seg i
      return if myAS = as then .inr false else .inl ()) 0 segLen.toNat ()
    return toStep r) 1 () data
  return finish (fun _ => true) r

/-- `aspath_match`, with `as_compare` for the AS numbers. -/
def aspathMatch (localAs : UInt32) (f : Filter.FilterAs) (neighas : ℕ) : Walk Bool :=
  match f.type with
  | .empty => return data.length = 0
  -- just check the leftmost AS
  | .peer => do
    let as ← aspathNeighbor data localAs
    return Filter.asCompare f as.toNat neighas
  -- just look at AS_SEQUENCE segments
  | .source => do
    let r ← segLoop (fun as seg segType segLen => do
      let as ← if segType = asSequence then aspathExtract seg (segLen.toNat - 1) else pure as
      -- not yet in the final segment
      if seg.length ≠ segSize segLen then return .skip as
      return .done (Filter.asCompare f as.toNat neighas)) 6 (0 : UInt32) data
    return finish (fun _ => false) r
  | .transit | .all => do
    let r ← segLoop (fun as seg _ segLen => do
      let final : Bool := seg.length = segSize segLen
      let r ← asLoop (fun _ i => do
        -- the source AS is excluded from AS_TRANSIT matches
        if final ∧ i = segLen.toNat - 1 ∧ f.type = .transit then return .inr false
        let as ← aspathExtract seg i
        return if Filter.asCompare f as.toNat neighas then .inr true else .inl as) 0 segLen.toNat as
      return toStep r) 6 (0 : UInt32) data
    return finish (fun _ => false) r

/-- `aspath_lenmatch` -/
def aspathLenmatch (type : Filter.AslenSpec) (aslen : ℕ) : Walk Bool :=
  match type with
  | .max => do
    let cnt ← aspathCount data
    return aslen < cnt
  | .seq => do
    let r ← segLoop (fun s seg segType segLen => do
      let r ← asLoop (fun (s : UInt32 × ℕ) i => do
        let as ← aspathExtract seg i
        return if as = s.1 then if aslen < s.2 + 1 then .inr true else .inl (as, s.2 + 1)
          -- AS path 3 { 4 3 7 } 3 will have count = 3
          else if segType = asSet then .inl s
          else .inl (as, 1)) 0 segLen.toNat s
      return toStep r) 1 (0, 0) data
    return finish (fun _ => false) r

/-- `aspa_check_aspath`; `none` is the return value -1. -/
def aspaCheckAspath (ra : Rpki.RdeAspa) : Walk (Option Rpki.AspaState) := do
  let r ← segLoop (fun st seg segType segLen => do
    if segType ≠ asSequence then return .done none
    let r ← asLoop (ρ := Option Rpki.AspaState) (fun st i => do
      let as ← aspathExtract seg i
      return .inl (Rpki.aspaCheckAs ra st as.toNat)) 0 segLen.toNat st
    return match r with
      | .inl st => .skip st
      | .inr r => .done r) 1 (0, { ndownP := 1 }) data
  return finish
    (fun st => some (if st.2.nupP = 0 then { st.2 with nupP := st.2.nhops } else st.2)) r

/-! ## New paths -/

/-- Memory of `size` bytes that is written from the start on. -/
def written (size : ℕ) (out : List UInt8) : Walk (List UInt8) :=
  if size < out.length then .error .bounds else return out

/-- The type and the length of the first segment, as `aspath_prepend` needs them. -/
def firstSegment : Walk (UInt8 × ℕ) := do
  -- empty as path
  if data.length = 0 then return (asSet, 0)
  if data.length < 2 then .error .fatalx
  let type ← readByte data 0
  let size ← readByte data 1
  return (type, size.toNat)

/-- `aspath_prepend`: the new path and `*len`. -/
def aspathPrepend (as : UInt32) (quantum : ℕ) : Walk (List UInt8 × ℕ) := do
  -- first calculate new size
  let (type, size) ← firstSegment data
  if 255 < quantum then .error .fatalx
  -- no change needed but return a copy
  if quantum = 0 then return (data, data.length)
  -- need to attach a new AS_SEQUENCE
  let attach : Bool := type = asSet ∨ 255 < size + quantum
  let l := (if attach then 2 else 0) + quantum * 4 + data.length
  let overflow := if attach then if type = asSet then quantum else size + quantum - 255 else 0
  let quantum := quantum - overflow
  let shift := if 0 < quantum then 2 else 0
  -- first prepends
  let p ← written l <|
    (if 0 < overflow then asSequence :: UInt8.ofNat overflow ::
      (List.replicate overflow as).flatMap ibufAddN32 else []) ++
    (if 0 < quantum then asSequence :: UInt8.ofNat (quantum + size) ::
      (List.replicate quantum as).flatMap ibufAddN32 else []) ++
    data.drop shift
  return (p, l % 2 ^ 16)

/-- `aspath_override`: the new path and `*len`. -/
def aspathOverride (neighborAs localAs : UInt32) : Walk (List UInt8 × ℕ) := do
  if data = [] then return ([], 0)
  let r ← segLoop (ρ := List UInt8) (fun out seg segType segLen => do
    let r ← asLoop (ρ := List UInt8) (fun out i => do
      let as ← aspathExtract seg i
      return .inl (out ++ ibufAddN32 (if as = neighborAs then localAs else as)))
      0 segLen.toNat (out ++ [segType, segLen])
    return toStep r) 1 [] data
  let p ← written data.length (finish id r)
  return (p, data.length)

/-- `aspath_deflate`; `true` is `*flagnew`. -/
def aspathDeflate : Walk (List UInt8 × Bool) := do
  -- first calculate the length of the aspath
  let nlen ← segLoop (ρ := ℕ) (fun nlen _ _ segLen =>
    return .next ((nlen + 2 + 2 * segLen.toNat) % 2 ^ 16)) 1 0 data
  let nlen := finish id nlen
  if nlen = 0 then return ([], false)
  -- then copy the aspath
  let r ← segLoop (ρ := List UInt8 × Bool) (fun s seg segType segLen => do
    let r ← asLoop (ρ := List UInt8 × Bool) (fun s i => do
      let as ← aspathExtract seg i
      return .inl (if ushrtMax < as then (s.1 ++ addN16 asTrans, true)
        else (s.1 ++ addN16 as, s.2)))
      0 segLen.toNat (s.1 ++ [segType, segLen], s.2)
    return match r with
      | .inl s => .skip s
      | .inr r => .done r) 1 ([], false) data
  let ndata ← written nlen (finish id r).1
  return (ndata, (finish id r).2)

end

/-! ## Paths as text -/

/-- `%u` -/
def decimal (n : ℕ) : List Char := Nat.toDigits 10 n

/-- `aspath_delim` -/
def aspathDelim (segType : UInt8) (closing : Bool) : List Char :=
  if segType = asSet then if closing then [' ', '}'] else ['{', ' ']
  else if segType = asSequence then []
  else if segType = asConfedSequence then if closing then [' ', ')'] else ['(', ' ']
  else if segType = asConfedSet then if closing then [' ', ']'] else ['[', ' ']
  else if closing then ' ' :: '!' :: decimal segType.toNat
  else '!' :: (decimal segType.toNat ++ [' '])

/-- The loop of `aspath_strsize` that counts the digits of an AS number. -/
def digits (as : ℕ) : ℕ := if h : as / 10 = 0 then 1 else digits (as / 10) + 1
termination_by as
decreasing_by omega

/-- The loop of `aspath_strsize` over the ASes of a segment. -/
def strsizeAses : ℕ → ℕ → List UInt8 → Option (ℕ × List UInt8)
  | 0, total, buf => some (total, buf)
  | n + 1, total, buf => do
    let (as, buf) ← ibufGetN32 buf
    strsizeAses n (total + digits as.toNat) buf

/-- The loop of `aspath_strsize`; `none` is the return value -1. Every segment has a header, so the
    length of the buffer is enough fuel. -/
def strsizeLoop : ℕ → ℕ → List UInt8 → Option ℕ
  | _, total, [] => some (total + 1)
  | n + 1, total, segType :: segLen :: buf => do
    if segLen = 0 then none
    let total := (if total ≠ 0 then total + 1 else total) + (aspathDelim segType false).length
    let (total, buf) ← strsizeAses segLen.toNat total buf
    strsizeLoop n (total + (segLen.toNat - 1) + (aspathDelim segType true).length) buf
  | _, _, _ => none

/-- `aspath_strsize` -/
def aspathStrsize (data : List UInt8) : Option ℕ := strsizeLoop data.length 0 data

/-- `snprintf` and `UPDATE`: text is put behind the text in `buf` if `size` has room for it. -/
def update (size : ℕ) (buf text : List Char) : Option (ℕ × List Char) :=
  if size ≤ text.length then none else some (size - text.length, buf ++ text)

/-- The loop of `aspath_snprint` over the ASes of a segment, from number `i` on. -/
def snprintAses (segLen : ℕ) :
    ℕ → ℕ → ℕ → List Char → List UInt8 → Option (ℕ × List Char × List UInt8)
  | _, 0, size, str, buf => some (size, str, buf)
  | i, n + 1, size, str, buf => do
    let (as, buf) ← ibufGetN32 buf
    let (size, str) ← update size str (decimal as.toNat)
    let (size, str) ← if i + 1 < segLen then update size str [' '] else some (size, str)
    snprintAses segLen (i + 1) n size str buf

/-- The loop of `aspath_snprint`; `first` is `n == 0`. -/
def snprintLoop : ℕ → Bool → ℕ → List Char → List UInt8 → Option (List Char)
  | _, _, _, str, [] => some str
  | n + 1, first, size, str, segType :: segLen :: buf => do
    if segLen = 0 then none
    let (size, str) ← update size str ((if first then [] else [' ']) ++ aspathDelim segType false)
    let (size, str, buf) ← snprintAses segLen.toNat 0 segLen.toNat size str buf
    let (size, str) ← update size str (aspathDelim segType true)
    snprintLoop n false size str buf
  | _, _, _, _, _ => none

/-- `aspath_snprint`: the string in front of the NUL character. -/
def aspathSnprint (size : ℕ) (data : List UInt8) : Option (List Char) :=
  snprintLoop data.length true size [] data

/-- `aspath_asprint`: the size of the memory and the string in it; `none` is the return value -1. -/
def aspathAsprint (data : List UInt8) : Option (ℕ × List Char) := do
  let slen ← aspathStrsize data
  let str ← aspathSnprint slen data
  return (slen, str)

end Bgpd.Rde.AspathWalk
