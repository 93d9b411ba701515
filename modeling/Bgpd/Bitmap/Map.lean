import Mathlib.Data.BitVec
import Mathlib.Data.List.Basic

/-!
# Bitmaps

Model of `bitmap.c`. A map of at most 127 ids lives in its two words. A larger one is a block of the
heap: then the first word is the address of the block with the lowest bit set, and the second one
its number of words. Id 0 is not used, so the lowest bit of the first word is free for this mark.

The heap knows the blocks that are not yet freed, and the two counters of the statistics. The
address that `reallocarray` returns is an argument.

## Main definitions

- `Bitmap`, `Heap`, `Ptr`
- `bitmapSet`, `bitmapTest`, `bitmapClear`, `bitmapEmpty`
- `bitmapIdGet`, `bitmapIdPut`
-/

namespace Bgpd.Bitmap

/-! ## Data -/

/-- `BITMAP_BITS` -/
def bitmapBits : ℕ := 64

/-- `BITMAP_ALLOCSIZE` -/
def bitmapAllocsize : ℕ := 4

/-- `BITMAP_ROUNDUP` -/
def bitmapRoundup (x y : ℕ) : ℕ := (x + y) / y * y

/-- `struct bitmap` -/
structure Bitmap where
  data0 : BitVec 64
  data1 : BitVec 64

/-- The blocks by their addresses, `bitmap_size` and `bitmap_cnt`. -/
structure Heap where
  blocks : BitVec 64 → Option (List (BitVec 64))
  bitmapSize : BitVec 64
  bitmapCnt : BitVec 64

/-- An access that C leaves undefined. -/
inductive Fault
  /-- behind the end of an array -/
  | bounds
  /-- in a block that was freed, or that never was -/
  | freed

/-- A pointer to the words of a map. -/
inductive Ptr
  | inline
  | block (addr : BitVec 64)

/-- `bitmap_getset` -/
def bitmapGetset (map : Bitmap) : Ptr × ℕ :=
  if map.data0 &&& 1 = 0 then (.inline, 2)
  else (.block (map.data0 &&& ~~~1), map.data1.toNat % 2 ^ 32)

/-- `ptr[elm]` -/
def readAt (h : Heap) (map : Bitmap) (ptr : Ptr) (elm : ℕ) : Except Fault (BitVec 64) :=
  match ptr with
  | .inline => if elm = 0 then .ok map.data0 else if elm = 1 then .ok map.data1 else .error .bounds
  | .block a =>
    match h.blocks a with
    | none => .error .freed
    | some words =>
      match words[elm]? with
      | none => .error .bounds
      | some w => .ok w

/-- `ptr[elm] = w` -/
def writeAt (h : Heap) (map : Bitmap) (ptr : Ptr) (elm : ℕ) (w : BitVec 64) :
    Except Fault (Heap × Bitmap) :=
  match ptr with
  | .inline =>
    if elm = 0 then .ok (h, { map with data0 := w })
    else if elm = 1 then .ok (h, { map with data1 := w })
    else .error .bounds
  | .block a =>
    match h.blocks a with
    | none => .error .freed
    | some words =>
      if elm < words.length then
        .ok ({ h with blocks := Function.update h.blocks a (some (words.set elm w)) }, map)
      else .error .bounds

/-! ## Memory -/

/-- `bitmap_free` -/
def bitmapFree (h : Heap) (map : Bitmap) : Except Fault Heap :=
  match bitmapGetset map with
  | (.inline, _) => .ok h
  | (.block a, max) =>
    if (h.blocks a).isNone then .error .freed
    else .ok {
      blocks := Function.update h.blocks a none
      bitmapSize := h.bitmapSize - BitVec.ofNat 64 (max * 8)
      bitmapCnt := h.bitmapCnt - 1 }

/-- The loops of `bitmap_resize`: the old words, and zeros behind them. -/
def copyWords (h : Heap) (map : Bitmap) (newmax : ℕ) : Except Fault (List (BitVec 64)) := do
  let old ← (List.range (bitmapGetset map).2).mapM (readAt h map (bitmapGetset map).1)
  return old ++ List.replicate (newmax - (bitmapGetset map).2) 0

/-- The new block at `addr` becomes the map. -/
def moveTo (h : Heap) (map : Bitmap) (addr : BitVec 64) (newmax : ℕ) :
    Except Fault (Heap × Bitmap) := do
  let words ← copyWords h map newmax
  let h ← bitmapFree { h with blocks := Function.update h.blocks addr (some words) } map
  return ({ h with
      bitmapSize := h.bitmapSize + BitVec.ofNat 64 (newmax * 8), bitmapCnt := h.bitmapCnt + 1 },
    ⟨addr ||| 1, BitVec.ofNat 64 newmax⟩)

/-- `bitmap_resize`, and if it succeeds. -/
def bitmapResize (mem : Option (BitVec 64)) (h : Heap) (map : Bitmap) (elm : ℕ) :
    Except Fault (Heap × Bitmap × Bool) :=
  if bitmapRoundup elm bitmapAllocsize % 2 ^ 32 < (bitmapGetset map).2 then .ok (h, map, false)
  else
    match mem with
    | none => .ok (h, map, false)
    | some addr => do
      let (h, map) ← moveTo h map addr (bitmapRoundup elm bitmapAllocsize % 2 ^ 32)
      return (h, map, true)

/-! ## Bits -/

/-- `1ULL << (bid % BITMAP_BITS)` -/
def bitMask (bid : ℕ) : BitVec 64 := 1 <<< (bid % bitmapBits)

/-- The word of an id changes. -/
def changeWord (h : Heap) (map : Bitmap) (bid : ℕ) (f : BitVec 64 → BitVec 64) :
    Except Fault (Heap × Bitmap) := do
  let w ← readAt h map (bitmapGetset map).1 (bid / bitmapBits)
  writeAt h map (bitmapGetset map).1 (bid / bitmapBits) (f w)

/-- The map is extended if the id does not fit. -/
def extendFor (mem : Option (BitVec 64)) (h : Heap) (map : Bitmap) (bid : ℕ) :
    Except Fault (Heap × Bitmap × Bool) :=
  if (bitmapGetset map).2 ≤ bid / bitmapBits then bitmapResize mem h map (bid / bitmapBits)
  else .ok (h, map, true)

/-- `bitmap_set`, and if it succeeds. -/
def bitmapSet (mem : Option (BitVec 64)) (h : Heap) (map : Bitmap) (bid : ℕ) :
    Except Fault (Heap × Bitmap × Bool) :=
  if bid = 0 then .ok (h, map, false)
  else do
    let (h, map, done) ← extendFor mem h map bid
    if done then
      let (h, map) ← changeWord h map bid fun w => w ||| bitMask bid
      return (h, map, true)
    else return (h, map, false)

/-- `bitmap_test` -/
def bitmapTest (h : Heap) (map : Bitmap) (bid : ℕ) : Except Fault Bool :=
  if (bitmapGetset map).2 ≤ bid / bitmapBits ∨ bid = 0 then .ok false
  else do
    let w ← readAt h map (bitmapGetset map).1 (bid / bitmapBits)
    return w &&& bitMask bid != 0

/-- `bitmap_clear` -/
def bitmapClear (h : Heap) (map : Bitmap) (bid : ℕ) : Except Fault (Heap × Bitmap) :=
  if (bitmapGetset map).2 ≤ bid / bitmapBits ∨ bid = 0 then .ok (h, map)
  else changeWord h map bid fun w => w &&& ~~~bitMask bid

/-- A word without the inline marker. -/
def skipMarker (elm : ℕ) (m : BitVec 64) : BitVec 64 := if elm = 0 then m &&& ~~~1 else m

/-- The loop of `bitmap_empty` from word `elm` on. -/
def emptyLoop (h : Heap) (map : Bitmap) : ℕ → ℕ → Except Fault Bool
  | 0, _ => .ok true
  | fuel + 1, elm => do
    let m ← readAt h map (bitmapGetset map).1 elm
    if skipMarker elm m ≠ 0 then return false else emptyLoop h map fuel (elm + 1)

/-- `bitmap_empty` -/
def bitmapEmpty (h : Heap) (map : Bitmap) : Except Fault Bool :=
  emptyLoop h map (bitmapGetset map).2 0

/-- `ffsll` -/
def ffsll (m : BitVec 64) : ℕ := if m = 0 then 0 else (List.range 64).findIdx m.getLsbD + 1

/-- The search of `bitmap_id_get` from word `elm` on; without a free bit it ends behind the map. -/
def freeLoop (h : Heap) (map : Bitmap) : ℕ → ℕ → Except Fault ℕ
  | 0, elm => .ok (elm * bitmapBits % 2 ^ 32)
  | fuel + 1, elm => do
    let w ← readAt h map (bitmapGetset map).1 elm
    if skipMarker elm (~~~w) = 0 then freeLoop h map fuel (elm + 1)
    else return (elm * bitmapBits + ffsll (skipMarker elm (~~~w)) - 1) % 2 ^ 32

/-- `bitmap_id_get`: the id, and if it succeeds. -/
def bitmapIdGet (mem : Option (BitVec 64)) (h : Heap) (map : Bitmap) :
    Except Fault (Heap × Bitmap × ℕ × Bool) := do
  let bid ← freeLoop h map (bitmapGetset map).2 0
  let (h, map, done) ← bitmapSet mem h map bid
  return (h, map, bid, done)

/-- `bitmap_id_put` -/
def bitmapIdPut (h : Heap) (map : Bitmap) (bid : ℕ) : Except Fault (Heap × Bitmap) :=
  bitmapClear h map bid

/-- `bitmap_init` -/
def bitmapInit : Bitmap := ⟨0, 0⟩

/-- `bitmap_reset` -/
def bitmapReset (h : Heap) (map : Bitmap) : Except Fault (Heap × Bitmap) := do
  let h ← bitmapFree h map
  return (h, bitmapInit)

end Bgpd.Bitmap
