import Bgpd.Rde.Types

/-!
# Matching of Communities

The part of `rde_community.c` that decides if a list of communities has one that a filter
asks for. A `struct community` of a filter has in the upper bytes of its flags how each of
the three numbers is meant: as it is, as any number, or as the AS of a peer. Communities of a
path have only the type.
-/

namespace Bgpd.Rde

namespace Community

/-- The types in the low byte of the flags. -/
def typeBasic : ℕ := 8
def typeExt : ℕ := 16
def typeLarge : ℕ := 32

/-- The meanings in the other bytes of the flags. -/
def any : ℕ := 1
def neighborAs : ℕ := 2
def localAs : ℕ := 3

/-- Bits of the type of an extended community. -/
def extValue : ℤ := 0x3f
def extTransTwoAs : ℤ := 0x00
def extTransIpv4 : ℤ := 0x01
def extTransFourAs : ℤ := 0x02

/-- `(uint8_t)c->flags` -/
def type (c : Community) : ℕ := c.flags % 256

/-- The byte of the flags that says how number `i` is meant. -/
def meaning (c : Community) (i : ℕ) : ℕ := c.flags / 256 ^ i % 256

end Community

namespace Communities

/-- `UINT32_MAX` and `USHRT_MAX` -/
def uint32Max : ℕ := 0xffffffff
def ushrtMax : ℕ := 0xffff

/-- The two AS numbers of a peer that communities can stand for. -/
structure PeerAs where
  remoteAs : ℕ
  localAs : ℕ
  deriving DecidableEq, Repr

/-- `apply_flag`: the number and its mask. `none` is the return value -1; without a mask there
    is no way to ask for any number. -/
def applyFlag (num flag : ℕ) (peer : Option PeerAs) (mask : Bool) : Option (ℕ × ℕ) :=
  if flag = Community.any then if mask then some (0, 0) else none
  else if flag = Community.neighborAs then peer.map fun p => (p.remoteAs, uint32Max)
  else if flag = Community.localAs then peer.map fun p => (p.localAs, uint32Max)
  else some (num, uint32Max)

/-- `(int32_t)fc->data3 >> 8` -/
def extType (fc : Community) : ℤ :=
  (if fc.data3 < 2 ^ 31 then (fc.data3 : ℤ) else fc.data3 - 2 ^ 32) / 256

/-- `fc2c`: the community to look for and the mask. `none` is the return value -1 (and the
    `fatalx` call for a type that does not exist). -/
def fc2c (fc : Community) (peer : Option PeerAs) (mask : Bool) : Option (Community × Community) :=
  let full : Community := ⟨uint32Max, uint32Max, uint32Max, uint32Max⟩
  if fc.type = Community.typeBasic then do
    let (data1, mask1) ← applyFlag fc.data1 (fc.meaning 1) peer mask
    let (data2, mask2) ← applyFlag fc.data2 (fc.meaning 2) peer mask
    -- check that values fit
    if data1 > ushrtMax ∨ data2 > ushrtMax then none
    else some (⟨fc.type, data1, data2, 0⟩, { full with data1 := mask1, data2 := mask2 })
  else if fc.type = Community.typeLarge then do
    let (data1, mask1) ← applyFlag fc.data1 (fc.meaning 1) peer mask
    let (data2, mask2) ← applyFlag fc.data2 (fc.meaning 2) peer mask
    let (data3, mask3) ← applyFlag fc.data3 (fc.meaning 3) peer mask
    some (⟨fc.type, data1, data2, data3⟩,
      { full with data1 := mask1, data2 := mask2, data3 := mask3 })
  else if fc.type = Community.typeExt then
    let type := extType fc
    let subtype := fc.data3 % 256
    if fc.meaning 3 = Community.any then
      -- special case for 'ext-community * *'
      if mask then some (⟨fc.type, 0, 0, 0⟩, { full with data1 := 0, data2 := 0, data3 := 0 })
      else none
    else if type = -1 then
      -- special case for 'ext-community rt *'
      if fc.meaning 1 ≠ Community.any ∨ !mask then none
      else some (⟨fc.type, 0, 0, subtype⟩, { full with data1 := 0, data2 := 0, data3 := 0xff })
    else
      let data3 := (type % 2 ^ 24).toNat * 256 + subtype
      if fc.meaning 1 = Community.any then
        -- this is for 'ext-community subtype *'
        if mask then some (⟨fc.type, 0, 0, data3⟩, { full with data1 := 0, data2 := 0 })
        else none
      else if type % (Community.extValue + 1) = Community.extTransTwoAs ∨
          type % (Community.extValue + 1) = Community.extTransFourAs then do
        let (data1, mask1) ← applyFlag fc.data1 (fc.meaning 1) peer mask
        let (data2, mask2) ← applyFlag fc.data2 (fc.meaning 2) peer mask
        some (⟨fc.type, data1, data2, data3⟩,
          { full with data1 := mask1, data2 := mask2, data3 := 0xfffffdff })
      else if type % (Community.extValue + 1) = Community.extTransIpv4 then do
        let (data1, mask1) ← applyFlag fc.data1 (fc.meaning 1) peer mask
        let (data2, mask2) ← applyFlag fc.data2 (fc.meaning 2) peer mask
        -- check that values fit
        if data2 > ushrtMax then none
        else some (⟨fc.type, data1, data2, data3⟩, { full with data1 := mask1, data2 := mask2 })
      else some (⟨fc.type, fc.data1, fc.data2, data3⟩, full)
  else none

/-- `fast_match`: the order of communities in a list. -/
def fastMatch (a b : Community) : ℤ :=
  if a.type ≠ b.type then if a.type > b.type then 1 else -1
  else if a.data1 ≠ b.data1 then if a.data1 > b.data1 then 1 else -1
  else if a.data2 ≠ b.data2 then if a.data2 > b.data2 then 1 else -1
  else if a.data3 ≠ b.data3 then if a.data3 > b.data3 then 1 else -1
  else 0

/-- `mask_match` -/
def maskMatch (a b m : Community) : ℤ :=
  if a.type ≠ b.type then if a.type > b.type then 1 else -1
  else if a.data1 &&& m.data1 ≠ b.data1 &&& m.data1 then
    if a.data1 &&& m.data1 > b.data1 &&& m.data1 then 1 else -1
  else if a.data2 &&& m.data2 ≠ b.data2 &&& m.data2 then
    if a.data2 &&& m.data2 > b.data2 &&& m.data2 then 1 else -1
  else if a.data3 &&& m.data3 ≠ b.data3 &&& m.data3 then
    if a.data3 &&& m.data3 > b.data3 &&& m.data3 then 1 else -1
  else 0

/-- `community_match`. The list is sorted by `fast_match`, so `bsearch` finds an element that
    is equal if there is one. -/
def communityMatch (comm : List Community) (fc : Community) (peer : Option PeerAs) : Bool :=
  if fc.flags / 256 = 0 then
    -- fast path
    comm.any fun c => fastMatch fc c = 0
  else
    -- slow path
    match fc2c fc peer true with
    | none => false
    | some (test, mask) => comm.any fun c => maskMatch c test mask = 0

end Communities

end Bgpd.Rde
